import OpenBinder.Handler.Region

/-!
# The list of pending handlers

What the operations on `m_pendingHandlers` do to the list of handlers, and what holds of a process
in every state.

* `insertHandler_spec`, `unscheduleHandler_holds`: the list after an insertion and a removal.
* `Looper.Grips`: a thread has taken a handler off the list and not resumed it.
* `Inv`: the list is well formed, the bits of every handler are right, and at most one thread has a
  grip on it.
-/

namespace OpenBinder.BProcess

open Lib SHandler List
open Function (update update_eq_self update_of_ne update_self)

variable {H T D : Type*}

/-! ### The operations on the list -/

variable {time : H → ℤ} {links links' : Links H} {handler : H} {l : List H} {n : ℕ}

/-- The walk of `InsertHandler` ends at a handler of the list: the ones it went to are due before,
and the one after it is not. -/
theorem insertWalk_spec {msgTime : ℤ} {r : H} : ∀ {n : ℕ} {l m : List H} {p : H},
    links.Holds (l ++ p :: m) → insertWalk time links msgTime n p = some r →
    ∃ a b, p :: m = a ++ r :: b ∧ (∀ q ∈ (a ++ [r]).tail, time q < msgTime) ∧
      ∀ q ∈ b.head?, msgTime ≤ time q := by
  intro n
  induction n with
  | zero => intro l m p _ hr; cases hr
  | succ n ih =>
    intro l m p h hr
    have hnext := h.next
    unfold insertWalk at hr
    rw [hnext] at hr
    cases m with
    | nil =>
      obtain ⟨⟩ := hr
      exact ⟨[], [], rfl, by simp, by simp⟩
    | cons q m =>
      dsimp only [List.head?_cons] at hr
      split at hr
      · rename_i hq
        have h' : links.Holds ((l ++ [p]) ++ q :: m) := by simpa using h
        obtain ⟨a, b, heq, htail, hb⟩ := ih h' hr
        refine ⟨p :: a, b, by rw [heq]; rfl, ?_, hb⟩
        intro c hc
        -- the first of the rest is `q`, which the walk looked at before it went on
        cases a with
        | nil =>
          obtain ⟨rfl, rfl⟩ := List.cons.inj heq
          obtain rfl : c = q := by simpa using hc
          exact hq
        | cons d a =>
          obtain ⟨rfl, -⟩ := List.cons.inj heq
          have hc : c = q ∨ c ∈ (q :: a ++ [r]).tail := by simpa using hc
          rcases hc with rfl | hc
          · exact hq
          · exact htail c hc
      · rename_i hq
        obtain ⟨⟩ := hr
        refine ⟨[], q :: m, rfl, by simp, fun c hc => ?_⟩
        obtain rfl : q = c := Option.some.inj hc
        exact not_lt.1 hq

/-- Where `InsertHandler` puts a handler: behind a first one that is not due later and others that
are due before it, and in front of one that is not. -/
structure Place (time : H → ℤ) (handler : H) (before after : List H) : Prop where
  first : ∀ p ∈ before.head?, time p ≤ time handler
  behind : ∀ q ∈ before.tail, time q < time handler
  front : before = [] → ∀ q ∈ after.head?, time handler < time q
  stop : before ≠ [] → ∀ q ∈ after.head?, time handler ≤ time q

variable [DecidableEq H]

theorem insertHandler_spec (h : links.Holds l) (hl : handler ∉ l)
    (hins : insertHandler n time links handler = some links') :
    ∃ a b, l = a ++ b ∧ links'.Holds (a ++ handler :: b) ∧ Place time handler a b := by
  unfold insertHandler at hins
  rw [h.head] at hins
  cases l with
  | nil =>
    obtain ⟨⟩ := hins
    exact ⟨[], [], rfl, h.pushFront hl, by simp, by simp, by simp, by simp⟩
  | cons p l =>
    dsimp only [List.head?_cons] at hins
    split at hins
    · rename_i hp
      obtain ⟨⟩ := hins
      refine ⟨[], p :: l, rfl, h.pushFront hl, by simp, by simp, fun _ q hq => ?_, by simp⟩
      obtain rfl : p = q := Option.some.inj hq
      exact hp
    · rename_i hp
      obtain ⟨r, hr, rfl⟩ := Option.map_eq_some_iff.1 hins
      obtain ⟨a, b, heq, htail, hb⟩ := insertWalk_spec (l := []) h hr
      rw [heq] at h hl
      refine ⟨a ++ [r], b, by rw [heq]; simp, ?_, fun q hq => ?_, htail, by simp, fun _ => hb⟩
      · rw [append_assoc]
        exact h.insertAfter hl
      · obtain rfl : p = q := by
          cases a with
          | nil =>
            obtain ⟨rfl, -⟩ := List.cons.inj heq
            exact Option.some.inj hq
          | cons c a =>
            obtain ⟨rfl, -⟩ := List.cons.inj heq
            exact Option.some.inj hq
        exact not_lt.1 hp

theorem unscheduleHandler_holds (h : links.Holds l) (handler : H) :
    (unscheduleHandler links handler).Holds (l.erase handler) := by
  unfold unscheduleHandler
  split
  · rename_i hl
    obtain ⟨a, b, ha, hab, herase⟩ := exists_erase_eq ((h.listed_iff handler).1 hl)
    rw [herase]
    rw [hab] at h
    exact h.unlink
  · rename_i hl
    rw [erase_of_not_mem fun hmem => hl ((h.listed_iff handler).2 hmem)]
    exact h

/-! ### What holds of a process -/

/-- The outstanding calls of a kind for a handler. -/
def outstanding (s : BProcess H T D) (kind : Kind) (handler : H) : ℕ :=
  s.calls.countP fun c => c.kind = kind ∧ c.handler = handler

/-- A thread took a handler off the list and did not resume it. -/
def Looper.Grips (looper : Looper H) (handler : H) : Prop :=
  match looper.pc with
  | .acquiring h => h = handler
  | .dispatching h => h = handler
  | .handling h => h = handler ∧ looper.resumed = false
  | .handled h => h = handler ∧ looper.resumed = false
  | .resuming h => h = handler ∧ looper.resumed = false
  | .idle => False
  | .next => False

/-- **What holds of a process** whose list has these handlers. -/
structure Inv (s : BProcess H T D) (l : List H) : Prop where
  holds : s.links.Holds l
  flags : ∀ h, (s.handlers h).FlagsOk (s.outstanding .schedule h) (s.outstanding .unschedule h)
    (h ∈ l)
  nodup : ∀ h, (SMessageList.addrs (s.handlers h).queue).Nodup
  grips : ∀ t h, (s.loopers t).Grips h → (s.handlers h).dying = false →
    (s.handlers h).canSchedule = false
  alone : ∀ t t' h, (s.loopers t).Grips h → (s.loopers t').Grips h → (s.handlers h).dying = false →
    t = t'
  alls : ∀ t h b, (h, b) ∈ (s.loopers t).alls → (s.handlers h).dying = true

omit [DecidableEq H] in
theorem not_grips_init (handler : H) : ¬(Looper.init : Looper H).Grips handler := id

theorem Inv.init (max : ℕ) : (BProcess.init max : BProcess H T D).Inv [] where
  holds := .empty
  flags := fun _ => by
    have h : (SHandler.init : SHandler D).FlagsOk 0 0 False := .init
    simpa [BProcess.init, outstanding] using h
  nodup := fun _ => nodup_nil
  grips := fun _ h hg => absurd hg (not_grips_init h)
  alone := fun _ _ h hg => absurd hg (not_grips_init h)
  alls := fun _ _ _ hmem => absurd hmem not_mem_nil

variable {s : BProcess H T D} {kind : Kind}

theorem Inv.events (h : s.Inv l) (time : ℤ) (concurrency : ℕ) :
    Inv { s with nextEventTime := time, currentEventConcurrency := concurrency } l :=
  ⟨h.holds, h.flags, h.nodup, h.grips, h.alone, h.alls⟩

omit [DecidableEq H] in
theorem scheduleNextEvent_eq (s : BProcess H T D) :
    ∃ time, s.scheduleNextEvent = { s with nextEventTime := time } := by
  unfold scheduleNextEvent
  split
  · exact ⟨s.nextEventTime, rfl⟩
  · extract_lets nextTime
    split
    · exact ⟨_, rfl⟩
    · exact ⟨s.nextEventTime, rfl⟩

/-! ### A region of a handler -/

@[simp] theorem region_loopers (handler : H) (owner : Option T)
    (result : SHandler D × Option Kind) :
    (s.region handler owner result).loopers = s.loopers := rfl

@[simp] theorem region_self (handler : H) (owner : Option T) (result : SHandler D × Option Kind) :
    (s.region handler owner result).handlers handler = result.1 := update_self ..

theorem region_of_ne {h : H} (hne : h ≠ handler) (owner : Option T)
    (result : SHandler D × Option Kind) :
    (s.region handler owner result).handlers h = s.handlers h := update_of_ne hne ..

theorem region_outstanding (handler : H) (owner : Option T) (result : SHandler D × Option Kind)
    (kind : Kind) (h : H) : (s.region handler owner result).outstanding kind h
      = s.outstanding kind h + if h = handler then asks kind result.2 else 0 := by
  obtain ⟨handler', asked⟩ := result
  cases asked with
  | none => simp [outstanding, region, asks]
  | some k =>
    unfold outstanding region
    rw [Multiset.countP_cons]
    congr 1
    by_cases hh : h = handler
    · by_cases hk : k = kind <;> simp [asks, hh, hk]
    · simp [hh, Ne.symm hh]

/-- **A region that keeps what the bits say**, and does not let a handler be scheduled that is not
dying. -/
theorem Inv.region (h : s.Inv l) (handler : H) (owner : Option T)
    {result : SHandler D × Option Kind}
    (hflags : result.1.FlagsOk (s.outstanding .schedule handler + asks .schedule result.2)
      (s.outstanding .unschedule handler + asks .unschedule result.2) (handler ∈ l))
    (hnodup : (SMessageList.addrs result.1.queue).Nodup)
    (hdying : (s.handlers handler).dying = true → result.1.dying = true)
    (hcan : result.1.dying = false → (s.handlers handler).canSchedule = false →
      result.1.canSchedule = false ∨ ∀ t, ¬(s.loopers t).Grips handler) :
    (s.region handler owner result).Inv l := by
  have hlives {h' : H} (hd : ((s.region handler owner result).handlers h').dying = false) :
      (s.handlers h').dying = false := by
    by_cases hh : h' = handler
    · subst hh
      rw [region_self] at hd
      by_contra hn
      rw [hdying (by simpa using hn)] at hd
      cases hd
    · rwa [region_of_ne hh] at hd
  refine ⟨h.holds, fun h' => ?_, fun h' => ?_, fun t h' hg hd => ?_, fun t t' h' hg hg' hd => ?_,
    fun t h' b hmem => ?_⟩
  · rw [region_outstanding, region_outstanding]
    by_cases hh : h' = handler
    · subst hh
      rw [if_pos rfl, if_pos rfl, region_self]
      exact hflags
    · rw [if_neg hh, if_neg hh, region_of_ne hh]
      exact h.flags h'
  · by_cases hh : h' = handler
    · subst hh
      rw [region_self]
      exact hnodup
    · rw [region_of_ne hh]
      exact h.nodup h'
  · have hold := h.grips t h' hg (hlives hd)
    by_cases hh : h' = handler
    · subst hh
      rw [region_self] at hd ⊢
      exact (hcan hd hold).resolve_right fun hn => hn t hg
    · rwa [region_of_ne hh]
  · exact h.alone t t' h' hg hg' (hlives hd)
  · have hold := h.alls t h' b hmem
    by_cases hh : h' = handler
    · subst hh
      rw [region_self]
      exact hdying hold
    · rwa [region_of_ne hh]

theorem Inv.touch (h : s.Inv l) (handler : H) {fixed : Prop} {result : SHandler D × Option Kind}
    (ht : Touch fixed (s.handlers handler) result)
    (hnodup : (SMessageList.addrs result.1.queue).Nodup) :
    (s.region handler none result).Inv l := by
  have hbits : result.1.dying = (s.handlers handler).dying ∧
      result.1.canSchedule = (s.handlers handler).canSchedule := by
    cases ht <;> exact ⟨rfl, rfl⟩
  apply h.region handler none (ht.flagsOk (h.flags handler)) hnodup
  · rw [hbits.1]
    exact id
  · intro _ hcan
    rw [hbits.2]
    exact .inl hcan

/-! ### The outstanding calls -/

theorem outstanding_erase {c : Call H T} [DecidableEq T] (hc : c ∈ s.calls) (kind : Kind) (h : H) :
    s.outstanding kind h = ({ s with calls := s.calls.erase c } : BProcess H T D).outstanding kind h
      + if h = c.handler then asks kind (some c.kind) else 0 := by
  unfold outstanding
  obtain ⟨rest, hrest⟩ := Multiset.exists_cons_of_mem hc
  rw [hrest, Multiset.countP_cons]
  rw [Multiset.erase_cons_head]
  congr 1
  by_cases hh : h = c.handler
  · by_cases hk : c.kind = kind <;> simp [asks, hh, hk]
  · simp [hh, Ne.symm hh]

/-- **The list and a handler after a call.** The others are as they were. -/
theorem Inv.called [DecidableEq T] (h : s.Inv l) {c : Call H T} (hc : c ∈ s.calls)
    (handler : SHandler D) {l' : List H} (hlinks : links.Holds l')
    (hother : ∀ h', h' ≠ c.handler → (h' ∈ l' ↔ h' ∈ l))
    (hflags : ∀ schedules unschedules,
      (s.handlers c.handler).FlagsOk (schedules + asks .schedule (some c.kind))
        (unschedules + asks .unschedule (some c.kind)) (c.handler ∈ l) →
      handler.FlagsOk schedules unschedules (c.handler ∈ l'))
    (hqueue : handler.queue = (s.handlers c.handler).queue)
    (hdying : handler.dying = (s.handlers c.handler).dying)
    (hcan : handler.canSchedule = (s.handlers c.handler).canSchedule) :
    Inv { s with
      calls := s.calls.erase c
      handlers := update s.handlers c.handler handler
      links := links } l' := by
  have hold (h' : H) : (update s.handlers c.handler handler h').queue = (s.handlers h').queue
      ∧ (update s.handlers c.handler handler h').dying = (s.handlers h').dying
      ∧ (update s.handlers c.handler handler h').canSchedule
        = (s.handlers h').canSchedule := by
    by_cases hh : h' = c.handler
    · subst hh
      rw [update_self]
      exact ⟨hqueue, hdying, hcan⟩
    · rw [update_of_ne hh]
      exact ⟨rfl, rfl, rfl⟩
  refine ⟨hlinks, fun h' => ?_, fun h' => ?_, fun t h' hg hd => ?_, fun t t' h' hg hg' hd => ?_,
    fun t h' b hmem => ?_⟩
  · have hf := h.flags h'
    rw [outstanding_erase hc, outstanding_erase hc] at hf
    by_cases hh : h' = c.handler
    · subst hh
      rw [if_pos rfl, if_pos rfl] at hf
      dsimp only
      rw [update_self]
      exact hflags _ _ hf
    · rw [if_neg hh, if_neg hh] at hf
      dsimp only
      rw [update_of_ne hh]
      rw [← hother h' hh] at hf
      exact hf
  · dsimp only
    rw [(hold h').1]
    exact h.nodup h'
  · dsimp only at hd ⊢
    rw [(hold h').2.1] at hd
    rw [(hold h').2.2]
    exact h.grips t h' hg hd
  · dsimp only at hd
    rw [(hold h').2.1] at hd
    exact h.alone t t' h' hg hg' hd
  · dsimp only
    rw [(hold h').2.1]
    exact h.alls t h' b hmem

/-- What a call of `ScheduleHandler` does: the handler goes to its place, or off the list. -/
inductive Scheduled (handlers : H → SHandler D) (l : List H) (handler : H) :
    SHandler D → List H → Prop
  | off (heq : (handlers handler).startSchedule.2 = .cancelSchedule) :
      Scheduled handlers l handler (handlers handler).startSchedule.1 (l.erase handler)
  | on (hne : (handlers handler).startSchedule.2 ≠ .cancelSchedule) (a b : List H)
      (hl : l.erase handler = a ++ b)
      (hplace : Place (fun h => (handlers h).nextMessageTime) handler a b) :
      Scheduled handlers l handler (handlers handler).startSchedule.1.doneSchedule
        (a ++ handler :: b)

variable {s' : BProcess H T D} {looper : Looper H} {t : T}

theorem scheduleHandler_spec (hlinks : s.links.Holds l) (hs : s.scheduleHandler n handler = some s')
    :
    ∃ handler' l' links' time, Scheduled s.handlers l handler handler' l' ∧ links'.Holds l' ∧
      s' = { s with
        handlers := update s.handlers handler handler'
        links := links'
        nextEventTime := time } := by
  have herase := unscheduleHandler_holds hlinks handler
  unfold scheduleHandler at hs
  dsimp only at hs
  split at hs
  · rename_i hne
    obtain ⟨links', hins, rfl⟩ := Option.map_eq_some_iff.1 hs
    have hmem : handler ∉ l.erase handler := hlinks.nodup.not_mem_erase
    obtain ⟨a, b, hab, hholds, hplace⟩ := insertHandler_spec herase hmem hins
    obtain ⟨time, htime⟩ := scheduleNextEvent_eq ({ s with
      handlers := update s.handlers handler
        (s.handlers handler).startSchedule.1.doneSchedule
      links := links' } : BProcess H T D)
    exact ⟨_, _, links', time, .on hne a b hab hplace, hholds, htime⟩
  · rename_i heq
    obtain ⟨⟩ := hs
    obtain ⟨time, htime⟩ := scheduleNextEvent_eq ({ s with
      handlers := update s.handlers handler (s.handlers handler).startSchedule.1
      links := unscheduleHandler s.links handler } : BProcess H T D)
    exact ⟨_, _, _, time, .off (not_not.1 heq), herase, htime⟩

omit [DecidableEq H] in
theorem startSchedule_fst (handler : SHandler D) : ∃ need, handler.startSchedule.1
    = { handler with calledSchedule := false, needSchedule := need } := by
  by_cases heq : handler.startSchedule.2 = .cancelSchedule
  · obtain ⟨need, -, -, h⟩ := startSchedule_of_eq heq
    exact ⟨need, h⟩
  · exact ⟨false, (startSchedule_of_ne heq).2.2.2.2⟩

theorem mem_erase_iff {h : H} (hh : h ≠ handler) :
    h ∈ l.erase handler ↔ h ∈ l :=
  mem_erase_of_ne hh

variable [DecidableEq T] {c : Call H T}

theorem Inv.schedule (h : s.Inv l) (hc : c ∈ s.calls) (hkind : c.kind = .schedule)
    (hs : scheduleHandler n c.handler { s with calls := s.calls.erase c } = some s') :
    ∃ handler' l' links' time, Scheduled s.handlers l c.handler handler' l' ∧
      s' = { s with
        calls := s.calls.erase c
        handlers := update s.handlers c.handler handler'
        links := links'
        nextEventTime := time } ∧ s'.Inv l' := by
  have hlinks : ({ s with calls := s.calls.erase c } : BProcess H T D).links.Holds l := h.holds
  obtain ⟨handler', l', links', time, hsch, hholds, rfl⟩ := scheduleHandler_spec hlinks hs
  refine ⟨handler', l', links', time, hsch, rfl, ?_⟩
  obtain ⟨need, hneed⟩ := startSchedule_fst (s.handlers c.handler)
  suffices hinv : Inv { s with
      calls := s.calls.erase c
      handlers := update s.handlers c.handler handler'
      links := links' } l' from hinv.events time s.currentEventConcurrency
  cases hsch with
  | off heq =>
    apply h.called hc _ hholds fun h' hh => mem_erase_iff hh
    · intro schedules unschedules hf
      rw [hkind] at hf
      have := hf.scheduled_off heq
      simpa [asks, h.holds.nodup.mem_erase_iff] using this
    · rw [hneed]
    · rw [hneed]
    · rw [hneed]
  | on hne a b hab hplace =>
    apply h.called hc _ hholds
    · intro h' hh
      rw [← mem_erase_iff (l := l) hh, hab]
      simp [hh]
    · intro schedules unschedules hf
      rw [hkind] at hf
      have := hf.scheduled_on hne
      simpa [asks] using this
    · rw [hneed]
      rfl
    · rw [hneed]
      rfl
    · rw [hneed]
      rfl

theorem Inv.unschedule (h : s.Inv l) (hc : c ∈ s.calls) (hkind : c.kind = .unschedule) :
    Inv { s with
      calls := s.calls.erase c
      links := unscheduleHandler s.links c.handler } (l.erase c.handler) := by
  have hcalled := h.called hc (s.handlers c.handler)
    (unscheduleHandler_holds h.holds c.handler) (fun h' hh => mem_erase_iff hh)
    (fun schedules unschedules hf => by
      rw [hkind] at hf
      have := hf.off unschedules
      simpa [asks, h.holds.nodup.mem_erase_iff] using this) rfl rfl rfl
  rwa [update_eq_self] at hcalled

/-! ### The threads -/

omit [DecidableEq H] in
theorem setLooper_handlers (t : T) (looper : Looper H) :
    (s.setLooper t looper).handlers = s.handlers := rfl

theorem Inv.setLooper (h : s.Inv l) (t : T) (looper : Looper H)
    (hgrips : ∀ h', looper.Grips h' → (s.loopers t).Grips h')
    (halls : ∀ h' b, (h', b) ∈ looper.alls → (s.handlers h').dying = true) :
    (s.setLooper t looper).Inv l := by
  have hold (t' : T) (h' : H) (hg : ((s.setLooper t looper).loopers t').Grips h') :
      (s.loopers t').Grips h' := by
    unfold BProcess.setLooper at hg
    dsimp only at hg
    by_cases ht : t' = t
    · subst ht
      rw [update_self] at hg
      exact hgrips h' hg
    · rwa [update_of_ne ht] at hg
  refine ⟨h.holds, h.flags, h.nodup, fun t' h' hg => h.grips t' h' (hold t' h' hg),
    fun t' t'' h' hg hg' => h.alone t' t'' h' (hold t' h' hg) (hold t'' h' hg'),
    fun t' h' b hmem => ?_⟩
  unfold BProcess.setLooper at hmem
  dsimp only at hmem
  by_cases ht : t' = t
  · subst ht
    rw [update_self] at hmem
    exact halls h' b hmem
  · rw [update_of_ne ht] at hmem
    exact h.alls t' h' b hmem

theorem Inv.setPc (h : s.Inv l) (t : T) (pc : Pc H) (resumed : Bool)
    (hgrips : ∀ h', Looper.Grips { s.loopers t with pc := pc, resumed := resumed } h' →
      (s.loopers t).Grips h') :
    (s.setLooper t { s.loopers t with pc := pc, resumed := resumed }).Inv l :=
  h.setLooper t _ hgrips fun h' b hmem => h.alls t h' b hmem

omit [DecidableEq H] [DecidableEq T] in
/-- The handler whose `HandleMessage` a thread is in: of its `DispatchMessage` or of a
`DispatchAllMessages`. -/
theorem current_eq_some (h : looper.current = some handler) :
    looper.alls = [] ∧ looper.pc = .handling handler ∨
      ∃ alls, looper.alls = (handler, true) :: alls := by
  obtain ⟨pc, resumed, alls⟩ := looper
  unfold Looper.current at h
  cases alls with
  | nil =>
    cases pc with
    | handling handler' =>
      obtain ⟨⟩ := h
      exact .inl ⟨rfl, rfl⟩
    | _ => cases h
  | cons frame alls =>
    obtain ⟨handler', handling⟩ := frame
    cases handling with
    | true =>
      obtain ⟨⟩ := h
      exact .inr ⟨alls, rfl⟩
    | false => cases h

/-- **The first handler is taken off the list**, and the thread has a grip on it. -/
theorem Inv.take (h : s.Inv (handler :: l)) (t : T) :
    Inv { s.setLooper t { s.loopers t with pc := .acquiring handler } with
      links := s.links.popFront handler
      handlers := update s.handlers handler (s.handlers handler).deferScheduling } l := by
  have hnot := (nodup_cons.1 h.holds.nodup).1
  have hdying (h' : H) :
      (update s.handlers handler (s.handlers handler).deferScheduling h').dying
        = (s.handlers h').dying := by
    by_cases hh : h' = handler
    · rw [hh, update_self]
      rfl
    · rw [update_of_ne hh]
  -- the handler was on the list, so that it could be scheduled and no thread has a grip on it
  have hfree (t' : T) (hg : (s.loopers t').Grips handler)
      (hd : (s.handlers handler).dying = false) : False := by
    have hcan := (h.flags handler).can hd mem_cons_self
    rw [h.grips t' handler hg hd] at hcan
    cases hcan
  have hold (t' : T) (h' : H)
      (hg : (update s.loopers t { s.loopers t with pc := .acquiring handler } t').Grips h') :
      t' = t ∧ handler = h' ∨ (s.loopers t').Grips h' := by
    by_cases ht : t' = t
    · rw [ht, update_self] at hg
      exact .inl ⟨ht, hg⟩
    · rw [update_of_ne ht] at hg
      exact .inr hg
  refine ⟨h.holds.popFront, fun h' => ?_, fun h' => ?_, fun t' h' hg hd => ?_,
    fun t' t'' h' hg hg' hd => ?_, fun t' h' b hmem => ?_⟩
  · have hf := h.flags h'
    dsimp only
    by_cases hh : h' = handler
    · subst hh
      rw [update_self]
      have hoff : (s.handlers h').deferScheduling.FlagsOk (s.outstanding .schedule h')
          (s.outstanding .unschedule h') (h' ∈ l) := by
        have hdefer := hf.deferScheduling
        rwa [← iff_false_intro hnot] at hdefer
      exact hoff
    · rw [update_of_ne hh]
      rw [mem_cons, or_iff_right hh] at hf
      exact hf
  · dsimp only
    by_cases hh : h' = handler
    · rw [hh, update_self]
      exact h.nodup handler
    · rw [update_of_ne hh]
      exact h.nodup h'
  · dsimp only at hg hd ⊢
    rw [hdying] at hd
    by_cases hh : h' = handler
    · rw [hh, update_self]
      rfl
    · rw [update_of_ne hh]
      exact h.grips t' h' ((hold t' h' hg).resolve_left fun hn => hh hn.2.symm) hd
  · dsimp only at hg hg' hd
    rw [hdying] at hd
    rcases hold t' h' hg with ⟨rfl, rfl⟩ | hgt
    · rcases hold t'' handler hg' with ⟨rfl, -⟩ | hgt'
      · rfl
      · exact absurd (hfree t'' hgt' hd) id
    · rcases hold t'' h' hg' with ⟨rfl, rfl⟩ | hgt'
      · exact absurd (hfree t' hgt hd) id
      · exact h.alone t' t'' h' hgt hgt' hd
  · dsimp only at hmem ⊢
    rw [hdying]
    refine h.alls t' h' b ?_
    by_cases ht : t' = t
    · rw [ht]
      have hmem : (h', b) ∈ (update s.loopers t
        { s.loopers t with pc := .acquiring handler } t').alls := hmem
      rwa [ht, update_self] at hmem
    · have hmem : (h', b) ∈ (update s.loopers t
        { s.loopers t with pc := .acquiring handler } t').alls := hmem
      rwa [update_of_ne ht] at hmem

/-- What the top of the loop of `DispatchMessage` does. -/
inductive Next (s : BProcess H T D) (t : T) : List H → List H → BProcess H T D → Prop
  | leave (l : List H) (time : ℤ) (concurrency : ℕ) :
      Next s t l l { s.setLooper t { s.loopers t with pc := .idle } with
        nextEventTime := time
        currentEventConcurrency := concurrency }
  | take (handler : H) (l : List H) (time : ℤ) :
      Next s t (handler :: l) l { s.setLooper t { s.loopers t with pc := .acquiring handler } with
        links := s.links.popFront handler
        handlers := update s.handlers handler (s.handlers handler).deferScheduling
        nextEventTime := time }

theorem dispatchNext_spec (hlinks : s.links.Holds l) (t : T) (firstTime : Bool) (curTime : ℤ) :
    ∃ l', Next s t l l' (s.dispatchNext t firstTime curTime) := by
  have hleave : Next s t l l (s.dispatchLeave t) := by
    unfold dispatchLeave
    obtain ⟨time, htime⟩ := scheduleNextEvent_eq { s.setLooper t { s.loopers t with pc := .idle } with
      currentEventConcurrency := s.currentEventConcurrency - 1 }
    rw [htime]
    exact .leave l time _
  unfold dispatchNext
  rw [hlinks.head]
  cases l with
  | nil => exact ⟨[], hleave⟩
  | cons handler l =>
    dsimp only [List.head?_cons]
    split
    · refine ⟨l, ?_⟩
      split
      · obtain ⟨time, htime⟩ := scheduleNextEvent_eq
          { s.setLooper t { s.loopers t with pc := .acquiring handler } with
            links := s.links.popFront handler
            handlers := update s.handlers handler (s.handlers handler).deferScheduling }
        rw [htime]
        exact .take handler l time
      · exact .take handler l _
    · exact ⟨_, hleave⟩

theorem Next.inv {l' : List H} (hn : Next s t l l' s') (h : s.Inv l) : s'.Inv l' := by
  cases hn with
  | leave l time concurrency =>
    exact (h.setPc t .idle (s.loopers t).resumed fun _ hg => hg.elim).events time concurrency
  | take handler l time => exact (h.take t).events time s.currentEventConcurrency

/-- **`ResumeScheduling`** of a thread that goes on elsewhere: the region, and the thread there. -/
theorem resumeScheduling_setLooper (hres : (s.loopers t).resumed = false) :
    (s.resumeScheduling t handler).setLooper t looper
      = (s.setLooper t looper).region handler (some t) (s.handlers handler).resumeScheduling := by
  unfold BProcess.resumeScheduling
  rw [hres, if_neg Bool.false_ne_true]
  simp [BProcess.setLooper, BProcess.region]

/-- **`ResumeScheduling`** of a handler that the thread has a grip on, or that is dying. -/
theorem Inv.resume (h : s.Inv l) (t : T) (handler : H) (looper : Looper H)
    (hgrips : ∀ h', ¬looper.Grips h')
    (halls : ∀ h' b, (h', b) ∈ looper.alls → (h', b) ∈ (s.loopers t).alls)
    (hgrip : (s.loopers t).resumed = false → (s.handlers handler).dying = false →
      (s.loopers t).Grips handler) :
    ((s.resumeScheduling t handler).setLooper t looper).Inv l := by
  -- without the grip that the thread had
  have hset : (s.setLooper t looper).Inv l := by
    apply h.setLooper t looper
    · intro h' hg
      exact absurd hg (hgrips h')
    · intro h' b hmem
      exact h.alls t h' b (halls h' b hmem)
  by_cases hres : (s.loopers t).resumed = true
  · have heq : s.resumeScheduling t handler = s := if_pos hres
    rwa [heq]
  · have hres : (s.loopers t).resumed = false := by simpa using hres
    rw [resumeScheduling_setLooper hres]
    have hregion : ((s.setLooper t looper).region handler (some t)
        (s.handlers handler).resumeScheduling).Inv l := by
      apply hset.region handler (some t)
      · exact (hset.flags handler).resumeScheduling
      · exact hset.nodup handler
      · exact id
      · intro hd _
        refine .inr fun t' hg => ?_
        unfold BProcess.setLooper at hg
        dsimp only at hg
        by_cases ht : t' = t
        · rw [ht, update_self] at hg
          exact hgrips handler hg
        · rw [update_of_ne ht] at hg
          exact ht (h.alone t' t handler hg (hgrip hres hd) hd)
    exact hregion

omit [DecidableEq T] in
/-- **A message is taken** of a handler that is dying or that cannot be scheduled. -/
theorem Inv.pop (h : s.Inv l) (handler : H)
    (hcan : (s.handlers handler).dying = false → (s.handlers handler).canSchedule = false) :
    (s.region handler none ((s.handlers handler).dispatchMessage.1, none)).Inv l := by
  have hbits : (s.handlers handler).dispatchMessage.1.dying = (s.handlers handler).dying ∧
      (s.handlers handler).dispatchMessage.1.canSchedule
        = (s.handlers handler).canSchedule := by
    unfold SHandler.dispatchMessage
    split <;> exact ⟨rfl, rfl⟩
  apply h.region handler none
  · exact (h.flags handler).dispatchMessage hcan
  · exact nodup_dispatchMessage (h.nodup handler)
  · rw [hbits.1]
    exact id
  · rw [hbits.2]
    exact fun _ hc => .inl hc

omit [DecidableEq T] in
theorem Inv.stop (h : s.Inv l) (handler : H) (owner : Option T) :
    (s.region handler owner (s.handlers handler).unschedule).Inv l := by
  apply h.region handler owner
  · exact (h.flags handler).unschedule
  · exact h.nodup handler
  · exact fun _ => rfl
  · exact nofun

/-! ### `HandleMessage` and `DispatchAllMessages` -/

omit [DecidableEq H] in
theorem grips_resumed {h : H} (hg : Looper.Grips { looper with resumed := true } h) :
    looper.Grips h := by
  unfold Looper.Grips at hg ⊢
  dsimp only at hg ⊢
  split at hg
  · exact hg
  · exact hg
  · cases hg.2
  · cases hg.2
  · cases hg.2
  · exact hg
  · exact hg

theorem resumeScheduling_eq (hres : (s.loopers t).resumed = false) :
    s.resumeScheduling t handler
      = (s.region handler (some t) (s.handlers handler).resumeScheduling).setLooper t
        { s.loopers t with resumed := true } := by
  unfold BProcess.resumeScheduling
  rw [hres, if_neg Bool.false_ne_true]

omit [DecidableEq T] in
theorem Inv.resume_dying (h : s.Inv l) (owner : Option T)
    (hdying : (s.handlers handler).dying = true) :
    (s.region handler owner (s.handlers handler).resumeScheduling).Inv l := by
  apply h.region handler owner
  · exact (h.flags handler).resumeScheduling
  · exact h.nodup handler
  · exact id
  · intro hd
    have hd : (s.handlers handler).dying = false := hd
    rw [hdying] at hd
    cases hd

theorem Inv.resumeScheduling (h : s.Inv l) (hcurrent : (s.loopers t).current = some handler) :
    (s.resumeScheduling t handler).Inv l := by
  by_cases hres : (s.loopers t).resumed = true
  · have heq : s.resumeScheduling t handler = s := if_pos hres
    rwa [heq]
  · have hres : (s.loopers t).resumed = false := by simpa using hres
    rcases current_eq_some hcurrent with ⟨halls, hpc⟩ | ⟨alls, halls⟩
    · have hself := h.resume t handler { s.loopers t with resumed := true }
        (fun h' hg => by
          rw [Looper.Grips, hpc] at hg
          cases hg.2)
        (fun _ _ => id)
        (fun _ _ => by
          rw [Looper.Grips, hpc]
          exact ⟨rfl, hres⟩)
      rw [resumeScheduling_eq hres] at hself ⊢
      simpa [BProcess.setLooper] using hself
    · have hdying : (s.handlers handler).dying = true :=
        h.alls t handler true (by rw [halls]; exact mem_cons_self)
      rw [resumeScheduling_eq hres]
      have hregion := h.resume_dying (some t) hdying
      apply hregion.setLooper t
      · exact fun h' hg => grips_resumed hg
      · exact fun h' b hmem => hregion.alls t h' b hmem

theorem Inv.dispatchAllMessages (h : s.Inv l) (t : T) (handler : H) :
    ((s.region handler (some t) (s.handlers handler).unschedule).setLooper t
      { s.loopers t with alls := (handler, false) :: (s.loopers t).alls }).Inv l := by
  have hstop := h.stop handler (some t)
  apply hstop.setLooper t
  · exact fun _ => id
  · intro h' b hmem
    rcases mem_cons.1 hmem with heq | hmem
    · obtain ⟨rfl, -⟩ := Prod.mk.inj heq
      rw [region_self]
      rfl
    · exact hstop.alls t h' b hmem

theorem Inv.dispatchAll (h : s.Inv l) {b : Bool} {alls : List (H × Bool)}
    (halls : (s.loopers t).alls = (handler, b) :: alls) (more : Bool) :
    ((s.region handler none ((s.handlers handler).dispatchMessage.1, none)).setLooper t
      { s.loopers t with alls := if more then (handler, true) :: alls else alls }).Inv l := by
  have hpop := h.pop handler fun hd => by
    rw [h.alls t handler b (by rw [halls]; exact mem_cons_self)] at hd
    cases hd
  apply hpop.setLooper t
  · exact fun _ => id
  · intro h' b' hmem
    have hold : ∃ b', (h', b') ∈ (s.loopers t).alls := by
      rw [halls]
      cases more with
      | true =>
        rcases mem_cons.1 hmem with heq | hmem
        · obtain ⟨rfl, -⟩ := Prod.mk.inj heq
          exact ⟨b, mem_cons_self⟩
        · exact ⟨b', mem_cons_of_mem _ hmem⟩
      | false => exact ⟨b', mem_cons_of_mem _ hmem⟩
    obtain ⟨b'', hold⟩ := hold
    exact hpop.alls t h' b'' hold

omit [DecidableEq T] in
theorem Inv.release (h : s.Inv l) (handler : H) :
    Inv { s.region handler none (s.handlers handler).unschedule with
      gone := update s.gone handler true } l := by
  have hstop := h.stop handler none
  exact ⟨hstop.holds, hstop.flags, hstop.nodup, hstop.grips, hstop.alone, hstop.alls⟩

end OpenBinder.BProcess
