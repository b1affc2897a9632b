import OpenBinder.Parcel.Skip
import OpenBinder.Remote.Effect

/-!
# When `Effect` through a proxy is the same

* `received_of_sent`: the arguments that are left out are the ones that are put back.
* `transactEffect_eq`: what the object's end of the transaction does.
* `effect_same_iff`: the call is the same exactly when what is sent is received as it was, and
  the status and the initial output are such that it does not show that a status that is no
  error is not sent, and that the output is replaced instead of joined.
-/

namespace OpenBinder

open Lib List SParcel

theorem equal_wild {v : SValue} (h : v.isWild = true) : SValue.wild.Equal v := by
  have htype : v.mType = kWildTypeCode := eq_of_beq h
  cases v with
  | small type data =>
    obtain rfl : type = ⟨kWildTypeCode, by decide⟩ := Subtype.ext htype
    exact SValue.equal_of_code rfl
  | large type buffer => exact absurd htype.symm (SmallType.ne_large ⟨kWildTypeCode, by decide⟩ type)
  | map m => exact absurd htype (by show ¬ kMapTypeCode = kWildTypeCode; decide)

theorem equal_undefined {v : SValue} (h : v.isDefined = false) : SValue.undefined.Equal v := by
  have htype : v.mType = kUndefinedTypeCode := by simpa [SValue.isDefined] using h
  cases v with
  | small type data =>
    obtain rfl : type = ⟨kUndefinedTypeCode, by decide⟩ := Subtype.ext htype
    exact SValue.equal_of_code rfl
  | large type buffer =>
    exact absurd htype.symm (SmallType.ne_large ⟨kUndefinedTypeCode, by decide⟩ type)
  | map m => exact absurd htype (by show ¬ kMapTypeCode = kUndefinedTypeCode; decide)

theorem join_undefined (v : SValue) : SValue.join Flags.none .undefined v = some v := by
  have hwith : ∀ loop, SValue.joinWith .undefined v loop = some v := by
    intro loop
    unfold SValue.joinWith
    split
    · rfl
    · rw [if_neg fun h => absurd h.1 (by decide), if_pos (by decide)]
  cases v with
  | small type data => simp only [SValue.join, hwith]
  | large type buffer => simp only [SValue.join, hwith]
  | map m => rw [SValue.join]; exact hwith _

namespace EffectArgs

/-- Arguments that can be sent. -/
structure Sendable (a : EffectArgs) : Prop where
  in' : a.in'.Sendable
  inBindings : a.inBindings.Sendable
  outBindings : a.outBindings.Sendable

/-- Arguments of which `ArchivedSize` says a size. -/
structure Sized (a : EffectArgs) : Prop where
  in' : 0 ≤ a.in'.archivedSize
  inBindings : 0 ≤ a.inBindings.archivedSize
  outBindings : 0 ≤ a.outBindings.archivedSize

variable {a a' : EffectArgs} {values : List SValue}

theorem sent_length (a : EffectArgs) : a.sent.length ≤ 3 := by
  unfold sent
  split
  · exact le_rfl
  · split
    · exact Nat.le_succ 2
    · exact Nat.le_add_left 1 2

theorem Sendable.sent (h : a.Sendable) : ∀ v ∈ a.sent, v.Sendable := by
  have hall : ∀ v ∈ [a.in', a.inBindings, a.outBindings], v.Sendable := by
    intro v hv
    simp only [mem_cons, not_mem_nil, or_false] at hv
    rcases hv with rfl | rfl | rfl
    · exact h.in'
    · exact h.inBindings
    · exact h.outBindings
  intro v hv
  apply hall
  unfold EffectArgs.sent at hv
  split at hv
  · exact hv
  · split at hv
    · rcases mem_cons.1 hv with rfl | hv
      · exact mem_cons_self
      · exact mem_cons_of_mem _ (mem_singleton.1 hv ▸ mem_cons_self)
    · exact mem_singleton.1 hv ▸ mem_cons_self

theorem received_of_sent (h : List.Forall₂ SParcel.Received values a.sent) :
    ∃ a', received values = some a' ∧ a'.Equal a ∧ a'.Sized := by
  have hwild : 0 ≤ SValue.wild.archivedSize := by decide
  have hundefined : 0 ≤ SValue.undefined.archivedSize := by decide
  unfold sent at h
  split at h
  · cases h with
    | cons h1 h => cases h with
      | cons h2 h => cases h with
        | cons h3 h =>
          cases h
          exact ⟨_, rfl, ⟨h1.1, h2.1, h3.1⟩, h1.2, h2.2, h3.2⟩
  · rename_i hout
    have hout' := equal_undefined (Bool.eq_false_iff.2 hout)
    split at h
    · cases h with
      | cons h1 h => cases h with
        | cons h2 h =>
          cases h
          exact ⟨_, rfl, ⟨h1.1, h2.1, hout'⟩, h1.2, h2.2, hundefined⟩
    · rename_i hin
      have hin' := equal_wild (v := a.inBindings) (by simpa using hin)
      cases h with
      | cons h1 h =>
        cases h
        exact ⟨_, rfl, ⟨h1.1, hin', hout'⟩, h1.2, hwild, hundefined⟩

theorem sent_of_received (hlen : values.length ≤ a.sent.length) (h : received values = some a')
    (heq : a'.Equal a) : List.Forall₂ SValue.Equal values a.sent := by
  -- fewer values would have left out an argument that is sent
  have hwild : ∀ {v : SValue}, SValue.wild.Equal v → v.isWild = true := by
    intro v hv
    rw [← hv.isWild]
    decide
  have hundefined : ∀ {v : SValue}, SValue.undefined.Equal v → v.isDefined = false := by
    intro v hv
    rw [← hv.isDefined]
    decide
  obtain ⟨h1, h2, h3⟩ := heq
  unfold sent at hlen ⊢
  match values, h with
  | [v], h =>
    obtain ⟨⟩ := h
    rw [if_neg (Bool.eq_false_iff.1 (hundefined h3)), if_neg (by simp [hwild h2])]
    exact .cons h1 .nil
  | [v, w], h =>
    obtain ⟨⟩ := h
    have hout := Bool.eq_false_iff.1 (hundefined h3)
    rw [if_neg hout] at hlen ⊢
    split at hlen
    · rename_i hin
      rw [if_pos hin]
      exact .cons h1 (.cons h2 .nil)
    · exact absurd hlen (by show ¬ 2 ≤ 1; omega)
  | [v, w, x], h =>
    obtain ⟨⟩ := h
    split at hlen
    · rename_i hout
      rw [if_pos hout]
      exact .cons h1 (.cons h2 (.cons h3 .nil))
    · split at hlen
      · exact absurd hlen (by show ¬ 3 ≤ 2; omega)
      · exact absurd hlen (by show ¬ 3 ≤ 1; omega)

end EffectArgs

/-! ### The two ends -/

/-- Values whose parcel is as long as a parcel can be. -/
structure SParcel.Fits (cookie : BitVec 32 → BitVec 32 → BitVec 32) (values : List SValue) :
    Prop where
  bytes : 4 + (valuesBytes cookie values).length < 2 ^ 31
  parcel : ∀ q, setValues (flat cookie) values inlineSize = .ok (.ok q) → q.length < 2 ^ 31

/-- What a `HandleEffect` can join: a value as it can be built, which fits into a parcel. -/
structure SValue.Answer (cookie : BitVec 32 → BitVec 32 → BitVec 32) (v : SValue) : Prop where
  built : v.Built
  size : v.isErrorFree = true → 0 ≤ v.archivedSize
  fits : SParcel.Fits cookie [v]

section Effect

variable {σ : Type} {cookie : BitVec 32 → BitVec 32 → BitVec 32} {b : BBinder σ} {s : σ}
  {a a' : EffectArgs} {out : Option SValue}

theorem received_eq (ha : a.Sendable) (hfit : SParcel.Fits cookie a.sent) :
    ∃ buffer, SParcel.setValues (SParcel.flat cookie) a.sent inlineSize = .ok (.ok buffer) ∧
      ((∀ v ∈ a.sent, v.isUnambiguous = true) → ∃ values q a',
        buffer.arrived.getValues 3 = .ok (values, q) ∧ EffectArgs.received values = some a' ∧
          a'.Equal a ∧ a'.Sized) ∧
      ∀ {values q a'}, buffer.arrived.getValues 3 = .ok (values, q) →
        EffectArgs.received values = some a' → a'.Equal a →
          ∀ v ∈ a.sent, v.isUnambiguous = true := by
  have hsent := ha.sent
  have h3 := a.sent_length
  have h10 : a.sent.length ≤ 10 := by omega
  obtain ⟨buffer, hbuffer⟩ := setValues_ok inlineSize h10
    (fun v hv => (hsent v hv).errorFree) (fun v hv => (hsent v hv).size) hfit.bytes
  have hin := (setValues_wrote h10
    (fun v hv => SValue.errorsNegative_of_isErrorFree v (hsent v hv).errorFree) hbuffer).2
  have hlt := hfit.parcel _ hbuffer
  refine ⟨buffer, hbuffer, fun hu => ?_, fun hget hreceived heq => ?_⟩
  · obtain ⟨values, q, hget, hall⟩ := getValues_ok hin hlt h3 h10
      fun v hv => ⟨(hsent v hv).sound, (hsent v hv).errorFree, hu v hv⟩
    obtain ⟨a', hreceived, heq, hsized⟩ := EffectArgs.received_of_sent hall
    exact ⟨values, q, a', hget, hreceived, heq, hsized⟩
  · have hall := EffectArgs.sent_of_received (getValues_length hin hlt h3 h10 hget) hreceived
      heq
    exact getValues_only hin hlt h3 h10 (fun v hv => (hsent v hv).sound) hget hall

theorem transactEffect_eq {data q : SParcel} {values : List SValue}
    (hget : data.getValues 3 = .ok (values, q)) (hreceived : EffectArgs.received values = some a) :
    b.transactEffect cookie s data =
      let r := b.handleEffect s a
      if 0 ≤ r.status.toInt then
        (SParcel.setValues (SParcel.flat cookie) [r.joined] inlineSize).map
          fun reply => ⟨some a, reply, r.object⟩
      else .ok ⟨some a, .error r.status.toInt, r.object⟩ := by
  unfold BBinder.transactEffect BBinder.effect
  rw [hget, ok_bind]
  dsimp only
  rw [hreceived]
  dsimp only
  rw [join_undefined, ok_bind]
  dsimp only [Option.getD_some]
  split
  · cases SParcel.setValues (SParcel.flat cookie) [(b.handleEffect s a).joined] inlineSize with
    | error fault => rfl
    | ok reply => rfl
  · rfl

theorem called_received {data : SParcel} {served : EffectServed σ}
    (h : b.transactEffect cookie s data = .ok served) (hcalled : served.called = some a) :
    ∃ values q, data.getValues 3 = .ok (values, q) ∧ EffectArgs.received values = some a := by
  obtain ⟨⟨values, q⟩, hget, -⟩ := bind_eq_ok.1 h
  refine ⟨values, q, hget, ?_⟩
  cases hreceived : EffectArgs.received values with
  | none =>
    unfold BBinder.transactEffect at h
    rw [hget, ok_bind] at h
    dsimp only at h
    rw [hreceived] at h
    rw [ok_bind] at h
    dsimp only at h
    rw [if_pos le_rfl] at h
    rw [← Except.ok.inj h] at hcalled
    cases hcalled
  | some a' =>
    rw [transactEffect_eq hget hreceived] at h
    dsimp only at h
    split at h
    · cases hset : SParcel.setValues (SParcel.flat cookie) [(b.handleEffect s a').joined]
        inlineSize with
      | error fault =>
        rw [hset] at h
        cases h
      | ok reply =>
        rw [hset] at h
        rw [← Except.ok.inj h] at hcalled
        exact hcalled
    · rw [← Except.ok.inj h] at hcalled
      exact hcalled

/-- **What a call has to find**: what is sent does not look like an object; a status that is an
error leaves just that error in the output; and one that is not is `B_OK`, and what is joined
has no errors, does not look like an object, and is all that there is in the output. -/
structure BpBinder.EffectFits (b : BBinder σ) (s : σ) (a : EffectArgs) (out : Option SValue) :
    Prop where
  sent : ∀ v ∈ a.sent, v.isUnambiguous = true
  failed : (b.handleEffect s a).status.toInt < 0 → ∀ v ∈ out,
    ∃ r, SValue.join Flags.none v (b.handleEffect s a).joined = some r ∧
      r.Equal (.error (b.handleEffect s a).status)
  answered : 0 ≤ (b.handleEffect s a).status.toInt →
    (b.handleEffect s a).status.toInt = 0 ∧ (b.handleEffect s a).joined.isErrorFree = true ∧
      ∀ v ∈ out, (b.handleEffect s a).joined.isUnambiguous = true ∧
        ∃ r, SValue.join Flags.none v (b.handleEffect s a).joined = some r ∧
          r.Equal (b.handleEffect s a).joined

/-- The end of `BpBinder::Effect`, with what came back. -/
def BpBinder.finish (out : Option SValue) (served : EffectServed σ) : Except Fault (Effected σ) :=
  match served.reply with
  | .error code =>
    .ok ⟨served.called, code, out.map fun _ => .error (BitVec.ofInt 32 code), served.object⟩
  | .ok reply =>
    match out with
    | none => .ok ⟨served.called, 0, none, served.object⟩
    | some v => do
      let (values, _) ← reply.arrived.getValues 1
      match values with
      | value :: _ => return ⟨served.called, value.errorCheck, some value, served.object⟩
      | [] => return ⟨served.called, 0, some v, served.object⟩

theorem effect_finish {buffer : SParcel}
    (hbuffer : SParcel.setValues (SParcel.flat cookie) a.sent inlineSize = .ok (.ok buffer)) :
    BpBinder.effect cookie b s a out =
      b.transactEffect cookie s buffer.arrived >>= BpBinder.finish out := by
  unfold BpBinder.effect
  rw [hbuffer]
  rfl

variable {v : SValue}

/-- **A value that is sent back** is one value, which is as it was exactly if it does not look like
an object. -/
theorem reply_eq (hv : v.Answer cookie) {reply : SParcel}
    (h : SParcel.setValues (SParcel.flat cookie) [v] inlineSize = .ok (.ok reply)) :
    v.isErrorFree = true ∧
      (v.isUnambiguous = true → ∃ v' q, reply.arrived.getValues 1 = .ok ([v'], q) ∧ v'.Equal v) ∧
      ∀ {values q}, reply.arrived.getValues 1 = .ok (values, q) →
        ∃ v', values = [v'] ∧ (v'.Equal v → v.isUnambiguous = true) := by
  have hone : ∀ {P : SValue → Prop}, P v → ∀ w ∈ [v], P w := by
    intro P hP w hw
    rw [mem_singleton.1 hw]
    exact hP
  have h10 : [v].length ≤ 10 := Nat.le_add_left 1 9
  obtain ⟨hfree, hin⟩ := setValues_wrote h10 (hone hv.built.negative) h
  have hlt := hv.fits.parcel _ h
  have hfree' := hfree v (mem_singleton_self v)
  refine ⟨hfree', fun hu => ?_, fun {values q} hget => ?_⟩
  · obtain ⟨values, q, hget, hall⟩ := getValues_ok hin hlt le_rfl h10
      (hone ⟨hv.built.sound, hfree', hu⟩)
    cases hall with
    | cons heq hall =>
      cases hall
      exact ⟨_, q, hget, heq.1⟩
  · have hlen := getValues_length hin hlt le_rfl h10 hget
    have hne : values ≠ [] := by
      rw [getValues_eq hin hlt (show [v].length ≤ 1 from le_rfl) h10] at hget
      exact readValues_ne_nil hget
    obtain ⟨v', rfl⟩ : ∃ v', values = [v'] :=
      length_eq_one_iff.1 (le_antisymm hlen (length_pos_iff.2 hne))
    refine ⟨v', rfl, fun heq => ?_⟩
    exact getValues_only hin hlt le_rfl h10 (hone hv.built.sound) hget (.cons heq .nil) v
      (mem_singleton_self v)

theorem reply_ok (hv : v.Answer cookie) (hfree : v.isErrorFree = true) :
    ∃ reply, SParcel.setValues (SParcel.flat cookie) [v] inlineSize = .ok (.ok reply) := by
  apply setValues_ok _ (show [v].length ≤ 10 from Nat.le_add_left 1 9) _ _ hv.fits.bytes
  · intro w hw
    rw [mem_singleton.1 hw]
    exact hfree
  · intro w hw
    rw [mem_singleton.1 hw]
    exact hv.size hfree

theorem errorCheck_of_isErrorFree (h : v.isErrorFree = true) : v.errorCheck = 0 := by
  have herr := SValue.isError_of_isErrorFree h
  cases v with
  | small type data => exact if_neg (ne_of_beq_false herr)
  | large type buffer => rfl
  | map m => rfl

theorem effect_some {r : SValue} (h : SValue.join Flags.none v (b.handleEffect s a).joined = some r)
    :
    b.effect s a (some v) = .ok ⟨some a, (b.handleEffect s a).status.toInt, some r,
      (b.handleEffect s a).object⟩ := by
  unfold BBinder.effect
  dsimp only
  rw [h]

theorem same_of_fits (ha : a.Sendable) (hfit : SParcel.Fits cookie a.sent)
    (hanswer : ∀ a', a'.Equal a → a'.Sized → (b.handleEffect s a').joined.Answer cookie)
    (h : BpBinder.EffectFits b s a out) : BpBinder.EffectSame cookie b s a out := by
  obtain ⟨buffer, hbuffer, hok, -⟩ := received_eq ha hfit
  obtain ⟨values, q, a', hget, hreceived, heq, hsized⟩ := hok h.sent
  obtain ⟨hstatus, hjoined, hobject⟩ := b.equal (s := s) heq
  have hans := hanswer a' heq hsized
  have hserve : b.transactEffect cookie s buffer.arrived = _ := transactEffect_eq hget hreceived
  unfold BpBinder.EffectSame
  rw [effect_finish hbuffer, hserve]
  by_cases h0 : 0 ≤ (b.handleEffect s a).status.toInt
  · obtain ⟨hzero, hfree, hout⟩ := h.answered h0
    obtain ⟨reply, hreply⟩ := reply_ok hans (hjoined.symm.isErrorFree hfree)
    rw [if_pos (hstatus ▸ h0), hreply]
    cases out with
    | none =>
      refine ⟨_, _, rfl, rfl, ⟨a', rfl, heq⟩, hzero.symm, .none, hobject, ?_⟩
      intro _ v hv
      cases hv
    | some v =>
      obtain ⟨hu, r, hjoin, hr⟩ := hout v rfl
      obtain ⟨v', q', hback, hv'⟩ := (reply_eq hans hreply).2.1 (hjoined.symm.isUnambiguous hu)
      have hsame := hv'.trans hjoined
      have hremote : BpBinder.finish (some v) ⟨some a', .ok reply, (b.handleEffect s a').object⟩ =
          .ok ⟨some a', v'.errorCheck, some v', (b.handleEffect s a').object⟩ := by
        unfold BpBinder.finish
        dsimp only
        rw [hback]
        rfl
      refine ⟨_, _, hremote, effect_some hjoin, ⟨a', rfl, heq⟩, ?_,
        .some (hsame.trans hr.symm), hobject, ?_⟩
      · show v'.errorCheck = (b.handleEffect s a).status.toInt
        rw [errorCheck_of_isErrorFree (hsame.symm.isErrorFree hfree), hzero]
      · intro _ w hw
        rw [← Option.some.inj hw]
        exact hsame
  · rw [if_neg (hstatus ▸ h0), hstatus]
    cases out with
    | none =>
      refine ⟨_, _, rfl, rfl, ⟨a', rfl, heq⟩, rfl, .none, hobject, ?_⟩
      intro _ v hv
      cases hv
    | some v =>
      obtain ⟨r, hjoin, hr⟩ := h.failed (not_le.1 h0) v rfl
      refine ⟨_, _, rfl, effect_some hjoin, ⟨a', rfl, heq⟩, rfl, .some ?_, hobject,
        fun hnot => absurd hnot h0⟩
      rw [BitVec.ofInt_toInt]
      exact hr.symm

theorem effect_status {direct : Effected σ} (h : b.effect s a out = .ok direct) :
    direct.status = (b.handleEffect s a).status.toInt := by
  unfold BBinder.effect at h
  dsimp only at h
  split at h
  · rw [← Except.ok.inj h]
  · split at h
    · cases h
    · rw [← Except.ok.inj h]

theorem effect_out {direct : Effected σ} (h : b.effect s a (some v) = .ok direct) :
    ∃ r, SValue.join Flags.none v (b.handleEffect s a).joined = some r ∧ direct.out = some r := by
  cases hjoin : SValue.join Flags.none v (b.handleEffect s a).joined with
  | none =>
    unfold BBinder.effect at h
    dsimp only at h
    rw [hjoin] at h
    cases h
  | some r =>
    rw [effect_some hjoin] at h
    exact ⟨r, rfl, by rw [← Except.ok.inj h]⟩

theorem finish_called {served : EffectServed σ} {remote : Effected σ}
    (h : BpBinder.finish out served = .ok remote) : remote.called = served.called := by
  unfold BpBinder.finish at h
  split at h
  · rw [← Except.ok.inj h]
  · split at h
    · rw [← Except.ok.inj h]
    · obtain ⟨⟨values, q⟩, -, h⟩ := bind_eq_ok.1 h
      dsimp only at h
      split at h
      · rw [← Except.ok.inj h]
      · rw [← Except.ok.inj h]

/-- **Only a call that finds what it has to is the same.** -/
theorem fits_of_same (ha : a.Sendable) (hfit : SParcel.Fits cookie a.sent)
    (hanswer : ∀ a', a'.Equal a → a'.Sized → (b.handleEffect s a').joined.Answer cookie)
    (h : BpBinder.EffectSame cookie b s a out) : BpBinder.EffectFits b s a out := by
  obtain ⟨buffer, hbuffer, hok, honly⟩ := received_eq ha hfit
  obtain ⟨remote, direct, hremote, hdirect, ⟨a₁, hcalled, heq₁⟩, hst, hout, hobj, hsurvives⟩ := h
  rw [effect_finish hbuffer] at hremote
  obtain ⟨served, hserved, hfinish⟩ := bind_eq_ok.1 hremote
  obtain ⟨values₁, q₁, hget₁, hreceived₁⟩ := called_received hserved (finish_called hfinish ▸ hcalled)
  have hu := honly hget₁ hreceived₁ heq₁
  obtain ⟨values, q, a', hget, hreceived, heq, hsized⟩ := hok hu
  obtain ⟨hstatus, hjoined, hobject⟩ := b.equal (s := s) heq
  have hans := hanswer a' heq hsized
  rw [transactEffect_eq hget hreceived] at hserved
  have hstatus' := effect_status hdirect
  refine ⟨hu, fun hneg v hv => ?_, fun h0 => ?_⟩
  · obtain rfl : out = some v := hv
    rw [if_neg (by rw [hstatus]; omega)] at hserved
    obtain ⟨⟩ := hserved
    obtain ⟨⟩ := hfinish
    obtain ⟨r, hjoin, hr⟩ := effect_out hdirect
    rw [hr, hstatus, Option.map_some, BitVec.ofInt_toInt] at hout
    cases hout with
    | some heq => exact ⟨r, hjoin, heq.symm⟩
  · rw [if_pos (by rw [hstatus]; exact h0)] at hserved
    cases hset : SParcel.setValues (SParcel.flat cookie) [(b.handleEffect s a').joined]
      inlineSize with
    | error fault =>
      rw [hset] at hserved
      cases hserved
    | ok sent =>
      rw [hset] at hserved
      obtain ⟨⟩ := hserved
      cases sent with
      | error code =>
        -- the error that the reply has become is not the status
        have hcode := setValues_error hset
        rw [← Except.ok.inj hfinish] at hst
        have heq : code = direct.status := hst
        omega
      | ok reply =>
        obtain ⟨hfree, -, hback⟩ := reply_eq hans hset
        have hfree' := hjoined.isErrorFree hfree
        cases out with
        | none =>
          rw [← Except.ok.inj hfinish] at hst
          exact ⟨hstatus'.symm.trans hst.symm, hfree', fun v hv => by cases hv⟩
        | some v =>
          obtain ⟨⟨values', q'⟩, hget', hfinish⟩ := bind_eq_ok.1 hfinish
          obtain ⟨v', rfl, hu'⟩ := hback hget'
          obtain ⟨⟩ := hfinish
          have hsame := hsurvives (by rw [hstatus']; exact h0) v' rfl
          obtain ⟨r, hjoin, hr⟩ := effect_out hdirect
          refine ⟨?_, hfree', fun w hw => ?_⟩
          · rw [← hstatus', ← hst]
            exact errorCheck_of_isErrorFree (hsame.symm.isErrorFree hfree')
          · obtain ⟨⟩ := hw
            refine ⟨hjoined.isUnambiguous (hu' (hsame.trans hjoined.symm)), r, hjoin, ?_⟩
            rw [hr] at hout
            cases hout with
            | some heq => exact heq.symm.trans hsame

end Effect

/-- An object that counts its calls and answers with the count, and with a status. -/
def counter (status : BitVec 32) : BBinder ℕ where
  handleEffect s _ := ⟨status, .int32 (BitVec.ofNat 32 s), s + 1⟩
  equal := fun _ => ⟨rfl, .refl _, rfl⟩

/-- The cookies are of no use here. -/
def noCookie (_ _ : BitVec 32) : BitVec 32 := 0

theorem answer_five : SValue.Answer noCookie (.int32 5) := by
  refine ⟨⟨by decide, by decide⟩, fun _ => by decide, by decide, fun q hq => ?_⟩
  have hset : SParcel.setValues (SParcel.flat noCookie) [.int32 5] inlineSize = .ok (.ok
    ⟨wordBytes 1 ++ (wordBytes (packSmallType int32Type 4) ++ wordBytes 5), 12, 32, []⟩) := rfl
  rw [hset] at hq
  rw [← Except.ok.inj (Except.ok.inj hq)]
  decide

theorem sendable_int32 (n : BitVec 32) : (SValue.int32 n).Sendable := by
  refine ⟨?_, rfl, archivedSize_small rfl⟩
  rfl

end OpenBinder
