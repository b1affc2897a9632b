import OpenBinder.Handler.Pending

/-!
# No wake-up is lost

A handler that has a message and that no step is outstanding for is on the list of its process, as
long as three things are observed: an `UnscheduleHandler` does not take a handler off the list that
has been posted to since, nothing is posted to a handler after its `DispatchAllMessages`, and
`HandleMessage` does not call `ResumeScheduling` from a `DispatchAllMessages`.

* `WakeOk`: what keeps a handler with a message from being forgotten.
* `Live`: the invariant, for every handler and every thread.
-/

namespace OpenBinder.BProcess

open Lib SHandler List
open Function (update update_of_ne update_self)

variable {H T D : Type*}

/-- The thread has not taken the message of a handler yet. -/
def Looper.Takes (looper : Looper H) (handler : H) : Prop :=
  looper.pc = .acquiring handler ∨ looper.pc = .dispatching handler

/-- **What keeps a handler from being forgotten**: it is on the list or a thread has it, and one
that is dying has its messages dispatched at once. -/
structure WakeOk (handler : SHandler D) (gone : Bool) (listed gripped taken all : Prop) : Prop where
  listed : handler.dying = false → handler.canSchedule = true → handler.calledSchedule = false →
    handler.queue ≠ [] → listed
  gripped : handler.dying = false → handler.canSchedule = false → gripped
  need : handler.dying = false → handler.canSchedule = false → handler.queue ≠ [] →
    handler.needSchedule = true ∨ taken
  all : gone = false → handler.dying = true → handler.queue ≠ [] → all
  gone : gone = true → handler.dying = true

namespace WakeOk

variable {handler handler' : SHandler D} {gone : Bool}
  {listed listed' gripped gripped' taken taken' all all' : Prop}

theorem imp (h : WakeOk handler gone listed gripped taken all) (hl : listed → listed')
    (hg : gripped → gripped') (ht : taken → taken') (ha : all → all') :
    WakeOk handler gone listed' gripped' taken' all' where
  listed := fun hd hc hs hq => hl (h.listed hd hc hs hq)
  gripped := fun hd hc => hg (h.gripped hd hc)
  need := fun hd hc hq => (h.need hd hc hq).imp id ht
  all := fun hgone hd hq => ha (h.all hgone hd hq)
  gone := h.gone

theorem of_dying (hd : handler.dying = true)
    (hall : gone = false → handler.queue ≠ [] → all) :
    WakeOk handler gone listed gripped taken all where
  listed := fun hn => by rw [hd] at hn; cases hn
  gripped := fun hn => by rw [hd] at hn; cases hn
  need := fun hn => by rw [hd] at hn; cases hn
  all := fun hgone _ hq => hall hgone hq
  gone := fun _ => hd

section

variable (h : WakeOk handler gone listed gripped taken all)
include h

theorem dying_imp (hd : handler.dying = true) (hq : handler'.queue ≠ [] → handler.queue ≠ [])
    (hd' : handler'.dying = true) (ha : all → all') :
    WakeOk handler' gone listed' gripped' taken' all' :=
  of_dying hd' fun hgone hq' => ha (h.all hgone hd (hq hq'))

theorem touch {fixed : Prop} {result : SHandler D × Option Kind} {schedules unschedules : ℕ}
    (hf : handler.FlagsOk schedules unschedules listed) (ht : Touch fixed handler result)
    (hall : gone = false → handler.dying = true → result.1.queue ≠ [] → handler.queue = [] → all) :
    WakeOk result.1 gone listed gripped taken all := by
  have hkept (hgone : gone = false) (hd : handler.dying = true) (hq : result.1.queue ≠ []) :
      all := by
    by_cases hold : handler.queue = []
    · exact hall hgone hd hq hold
    · exact h.all hgone hd hold
  cases ht with
  | quiet queue hne htime =>
    exact ⟨fun hd hc hs hq => h.listed hd hc hs (hne hq), h.gripped,
      fun hd hc hq => h.need hd hc (hne hq), hkept, h.gone⟩
  | emptied =>
    exact ⟨fun _ _ _ hq => absurd rfl hq, h.gripped, fun _ _ hq => absurd rfl hq, hkept, h.gone⟩
  | needs queue =>
    refine ⟨fun hd hc hs _ => ?_, h.gripped, fun _ _ _ => .inl rfl, hkept, h.gone⟩
    -- it has been called for, since it can be scheduled and needs it
    have hneeds := (hf.queue queue).needs
    rw [hneeds.need hd hc rfl] at hs
    cases hs

theorem dispatchMessage (hcan : handler.dying = false → handler.canSchedule = false) :
    WakeOk handler.dispatchMessage.1 gone listed gripped False all := by
  unfold SHandler.dispatchMessage
  split
  · rename_i hq
    exact ⟨h.listed, h.gripped, fun _ _ hne => absurd hq hne, h.all, h.gone⟩
  · rename_i msg queue hq
    refine ⟨fun hd hc => ?_, h.gripped, fun _ _ hne => .inl ?_, fun hgone hd _ => ?_, h.gone⟩
    · rw [hcan hd] at hc
      cases hc
    · have hne : queue ≠ [] := hne
      simp [hne]
    · exact h.all hgone hd (by rw [hq]; exact cons_ne_nil _ _)

end

end WakeOk

/-- **The invariant**: no handler is forgotten, and `kSchedulingResumed` is set only while a thread
is in `HandleMessage` or after it. -/
structure Live [DecidableEq H] (s : BProcess H T D) (l : List H) : Prop where
  inv : s.Inv l
  wake : ∀ h, WakeOk (s.handlers h) (s.gone h) (h ∈ l) (∃ t, (s.loopers t).Grips h)
    (∃ t, (s.loopers t).Takes h) (∃ t b, (h, b) ∈ (s.loopers t).alls)
  resumed : ∀ t, (s.loopers t).resumed = true → ∃ h, (s.loopers t).pc = .handling h ∨
    (s.loopers t).pc = .handled h ∨ (s.loopers t).pc = .resuming h

/-- **What a step observes** so that no wake-up is lost. -/
def WakeSafe [DecidableEq H] (s : BProcess H T D) : Action H T D → Prop
  | .post handler _ _ _ new _ =>
    new ≠ none → (s.handlers handler).dying = true → s.gone handler = false →
      ∃ t b, (handler, b) ∈ (s.loopers t).alls
  | .call c _ =>
    c.kind = .unschedule → s.links.listed c.handler = true →
      (s.handlers c.handler).queue ≠ [] →
        (s.handlers c.handler).calledSchedule = true ∨ (s.handlers c.handler).dying = true
  | .resumeScheduling t =>
    (s.loopers t).alls ≠ [] → (s.loopers t).resumed = true ∨
      ∃ handler, (s.loopers t).pc = .handling handler ∧ (s.handlers handler).dying = true
  | _ => True

variable [DecidableEq H] {s : BProcess H T D} {l l' : List H}

theorem Live.init (max : ℕ) : (BProcess.init max : BProcess H T D).Live [] where
  inv := .init max
  wake := fun _ => ⟨fun _ _ _ hq => absurd rfl hq, nofun, nofun, nofun, nofun⟩
  resumed := nofun

theorem Live.events (h : s.Live l) (time : ℤ) (concurrency : ℕ) :
    Live { s with nextEventTime := time, currentEventConcurrency := concurrency } l :=
  ⟨h.inv.events time concurrency, h.wake, h.resumed⟩

theorem Live.region (h : s.Live l) (handler : H) (owner : Option T)
    {result : SHandler D × Option Kind} (hinv : (s.region handler owner result).Inv l)
    (hwake : WakeOk result.1 (s.gone handler) (handler ∈ l) (∃ t, (s.loopers t).Grips handler)
      (∃ t, (s.loopers t).Takes handler) (∃ t b, (handler, b) ∈ (s.loopers t).alls)) :
    (s.region handler owner result).Live l := by
  refine ⟨hinv, fun h' => ?_, h.resumed⟩
  by_cases hh : h' = handler
  · subst hh
    rw [region_self]
    exact hwake
  · rw [region_of_ne hh]
    exact h.wake h'

theorem Live.touch (h : s.Live l) (handler : H) {fixed : Prop} {result : SHandler D × Option Kind}
    (ht : Touch fixed (s.handlers handler) result)
    (hnodup : (SMessageList.addrs result.1.queue).Nodup)
    (hall : s.gone handler = false → (s.handlers handler).dying = true → result.1.queue ≠ [] →
      (s.handlers handler).queue = [] → ∃ t b, (handler, b) ∈ (s.loopers t).alls) :
    (s.region handler none result).Live l :=
  h.region handler none (h.inv.touch handler ht hnodup)
    ((h.wake handler).touch (h.inv.flags handler) ht hall)

/-! ### The outstanding calls -/

variable [DecidableEq T] {c : Call H T} {n : ℕ}

variable {s' : BProcess H T D} {t : T} {handler : H}

theorem Live.schedule (h : s.Live l) (hc : c ∈ s.calls) (hkind : c.kind = .schedule)
    (hs : scheduleHandler n c.handler { s with calls := s.calls.erase c } = some s') :
    ∃ l', s'.Live l' := by
  obtain ⟨handler', l', links', time, hsch, rfl, hinv⟩ := h.inv.schedule hc hkind hs
  refine ⟨l', hinv, fun h' => ?_, h.resumed⟩
  have hwake := h.wake h'
  dsimp only
  by_cases hh : h' = c.handler
  · subst hh
    rw [update_self]
    cases hsch with
    | off heq =>
      obtain ⟨need, hkeep, hneed, hstart⟩ := startSchedule_of_eq heq
      have hcalled := h.inv.flags c.handler
      rw [outstanding_erase hc, hkind, if_pos rfl] at hcalled
      have hcalled := hcalled.of_succ.1
      rw [hstart]
      refine ⟨fun hd hcan _ hq => absurd ?_ hq, hwake.gripped, fun hd hcan hq => ?_, hwake.all,
        hwake.gone⟩
      · exact (hneed hcan ((h.inv.flags c.handler).called hcalled) hd).2
      · have hold := hwake.need hd hcan hq
        rw [← hkeep hcan] at hold
        exact hold
    | on hne a b hab hplace =>
      obtain ⟨hcan, hneed, hdying, hqueue, hstart⟩ := startSchedule_of_ne hne
      rw [hstart]
      refine ⟨fun _ _ _ _ => by simp, fun _ hn => ?_, fun _ hn => ?_, fun _ hd => ?_, hwake.gone⟩
      · have hn : (s.handlers c.handler).canSchedule = false := hn
        rw [hcan] at hn
        cases hn
      · have hn : (s.handlers c.handler).canSchedule = false := hn
        rw [hcan] at hn
        cases hn
      · have hd : (s.handlers c.handler).dying = true := hd
        rw [hdying] at hd
        cases hd
  · rw [update_of_ne hh]
    refine hwake.imp (fun hl => ?_) id id id
    cases hsch with
    | off heq => exact (mem_erase_iff hh).2 hl
    | on hne a b hab hplace =>
      rw [← mem_erase_iff (l := l) hh, hab] at hl
      simpa [hh] using hl

theorem Live.unschedule (h : s.Live l) (hc : c ∈ s.calls) (hkind : c.kind = .unschedule)
    (hsafe : s.links.listed c.handler = true → (s.handlers c.handler).queue ≠ [] →
      (s.handlers c.handler).calledSchedule = true ∨ (s.handlers c.handler).dying = true) :
    Live { s with
      calls := s.calls.erase c
      links := unscheduleHandler s.links c.handler } (l.erase c.handler) := by
  refine ⟨h.inv.unschedule hc hkind, fun h' => ?_, h.resumed⟩
  have hwake := h.wake h'
  by_cases hh : h' = c.handler
  · subst hh
    refine ⟨fun hd hcan hcalled hq => ?_, hwake.gripped, hwake.need, hwake.all, hwake.gone⟩
    -- it was on the list, so that it has been called for or is dying
    have hl := (h.inv.holds.listed_iff c.handler).2 (hwake.listed hd hcan hcalled hq)
    rcases hsafe hl hq with hs | hs
    · rw [hs] at hcalled
      cases hcalled
    · rw [hs] at hd
      cases hd
  · exact hwake.imp (fun hl => (mem_erase_iff hh).2 hl) id id id

/-! ### The threads -/

omit [DecidableEq H] in
theorem exists_setLooper (P : Looper H → Prop) {t : T} {looper : Looper H}
    (hP : P (s.loopers t) → P looper) (hex : ∃ t', P (s.loopers t')) :
    ∃ t', P ((s.setLooper t looper).loopers t') := by
  obtain ⟨t', ht'⟩ := hex
  refine ⟨t', ?_⟩
  unfold BProcess.setLooper
  dsimp only
  by_cases ht : t' = t
  · subst ht
    rw [update_self]
    exact hP ht'
  · rwa [update_of_ne ht]

/-- **A thread that goes on**: it may let go of a handler that is dying, that can be scheduled, or
that needs it. -/
theorem Live.setLooper (h : s.Live l) (t : T) (looper : Looper H)
    (hinv : (s.setLooper t looper).Inv l)
    (hgrips : ∀ h', (s.handlers h').dying = false → (s.handlers h').canSchedule = false →
      (s.loopers t).Grips h' → looper.Grips h')
    (htakes : ∀ h', (s.handlers h').dying = false → (s.handlers h').canSchedule = false →
      (s.handlers h').queue ≠ [] → (s.loopers t).Takes h' →
      looper.Takes h' ∨ (s.handlers h').needSchedule = true)
    (halls : ∀ h', (s.handlers h').queue ≠ [] → (∃ b, (h', b) ∈ (s.loopers t).alls) →
      ∃ b, (h', b) ∈ looper.alls)
    (hresumed : looper.resumed = true → ∃ h', looper.pc = .handling h' ∨ looper.pc = .handled h' ∨
      looper.pc = .resuming h') :
    (s.setLooper t looper).Live l := by
  refine ⟨hinv, fun h' => ?_, fun t' => ?_⟩
  · have hwake := h.wake h'
    refine ⟨hwake.listed, fun hd hc => ?_, fun hd hc hq => ?_, fun hgone hd hq => ?_, hwake.gone⟩
    · exact exists_setLooper (Looper.Grips · h') (hgrips h' hd hc) (hwake.gripped hd hc)
    · rcases hwake.need hd hc hq with hneed | hex
      · exact .inl hneed
      · by_cases hneed : (s.handlers h').needSchedule = true
        · exact .inl hneed
        · have htake (htk : (s.loopers t).Takes h') : looper.Takes h' :=
            (htakes h' hd hc hq htk).resolve_right hneed
          exact .inr (exists_setLooper (Looper.Takes · h') htake hex)
    · exact exists_setLooper (fun looper => ∃ b, (h', b) ∈ looper.alls) (halls h' hq)
        (hwake.all hgone hd hq)
  · unfold BProcess.setLooper
    dsimp only
    by_cases ht : t' = t
    · rw [ht, update_self]
      exact hresumed
    · rw [update_of_ne ht]
      exact h.resumed t'

omit [DecidableEq T] in
theorem Live.resumed_false (h : s.Live l)
    (hpc : ∀ h', (s.loopers t).pc ≠ .handling h' ∧ (s.loopers t).pc ≠ .handled h' ∧
      (s.loopers t).pc ≠ .resuming h') : (s.loopers t).resumed = false := by
  by_contra hres
  obtain ⟨h', hp⟩ := h.resumed t (by simpa using hres)
  obtain ⟨h1, h2, h3⟩ := hpc h'
  tauto

theorem Live.next (hn : Next s t l l' s') (h : s.Live l)
    (hpc : (s.loopers t).pc = .idle ∨ (s.loopers t).pc = .next) : s'.Live l' := by
  have hgrips (h' : H) : ¬(s.loopers t).Grips h' := by
    rcases hpc with hpc | hpc <;> simp [Looper.Grips, hpc]
  have htakes (h' : H) : ¬(s.loopers t).Takes h' := by
    rcases hpc with hpc | hpc <;> simp [Looper.Takes, hpc]
  have hres : (s.loopers t).resumed = false := by
    apply h.resumed_false
    intro h'
    rcases hpc with hpc | hpc <;> simp [hpc]
  have hinv := hn.inv h.inv
  cases hn with
  | leave l time concurrency =>
    refine Live.events (s := s.setLooper t { s.loopers t with pc := .idle }) ?_ time concurrency
    apply h.setLooper t
    · exact ⟨hinv.holds, hinv.flags, hinv.nodup, hinv.grips, hinv.alone, hinv.alls⟩
    · exact fun h' _ _ hg => absurd hg (hgrips h')
    · exact fun h' _ _ _ htk => absurd htk (htakes h')
    · exact fun _ _ => id
    · intro hr
      rw [hres] at hr
      cases hr
  | take handler l time =>
    refine ⟨hinv, fun h' => ?_, fun t' => ?_⟩
    · have hwake := h.wake h'
      have hall (hex : ∃ t' b, (h', b) ∈ (s.loopers t').alls) :=
        @exists_setLooper H T D s _ (fun looper => ∃ b, (h', b) ∈ looper.alls) t
          { s.loopers t with pc := .acquiring handler } id hex
      dsimp only
      by_cases hh : h' = handler
      · subst hh
        rw [update_self]
        have hself : ((s.setLooper t { s.loopers t with pc := .acquiring h' }).loopers t).pc
            = .acquiring h' := by
          simp [BProcess.setLooper]
        refine ⟨fun _ hc => absurd hc Bool.false_ne_true, fun _ _ => ⟨t, ?_⟩, fun _ _ _ => .inr ⟨t, .inl hself⟩,
          fun hgone hd hq => hall (hwake.all hgone hd hq), hwake.gone⟩
        unfold Looper.Grips
        rw [hself]
      · rw [update_of_ne hh]
        apply hwake.imp (fun hl => (mem_cons.1 hl).resolve_left hh) _ _ hall
        · exact exists_setLooper (Looper.Grips · h') fun hg => absurd hg (hgrips h')
        · exact exists_setLooper (Looper.Takes · h') fun htk => absurd htk (htakes h')
    · dsimp only
      by_cases ht : t' = t
      · subst ht
        intro hr
        have hr : (update s.loopers t' { s.loopers t' with pc := .acquiring handler }
          t').resumed = true := hr
        rw [update_self] at hr
        rw [hres] at hr
        cases hr
      · have hold := h.resumed t'
        have heq : (s.setLooper t { s.loopers t with pc := .acquiring handler }).loopers t'
            = s.loopers t' := update_of_ne ht ..
        rw [heq]
        exact hold

theorem Live.setPc (h : s.Live l) (t : T) (pc : Pc H)
    (hgrips : ∀ h', (s.loopers t).Grips h' ↔ Looper.Grips { s.loopers t with pc := pc } h')
    (htakes : ∀ h', (s.loopers t).Takes h' → Looper.Takes { s.loopers t with pc := pc } h')
    (hresumed : (s.loopers t).resumed = true → ∃ h', pc = .handling h' ∨ pc = .handled h' ∨
      pc = .resuming h') :
    (s.setLooper t { s.loopers t with pc := pc }).Live l := by
  apply h.setLooper t
  · exact h.inv.setPc t pc (s.loopers t).resumed fun h' hg => (hgrips h').2 hg
  · exact fun h' _ _ hg => (hgrips h').1 hg
  · exact fun h' _ _ _ htk => .inl (htakes h' htk)
  · exact fun _ _ => id
  · exact hresumed

theorem Live.attemptAcquire (h : s.Live l) (hpc : (s.loopers t).pc = .acquiring handler) :
    (s.setLooper t { s.loopers t with
      pc := if s.gone handler then .next else .dispatching handler }).Live l := by
  have hres : (s.loopers t).resumed = false := h.resumed_false fun h' => by simp [hpc]
  split
  · rename_i hgone
    have hdying := (h.wake handler).gone hgone
    have hlet (h' : H) (hd : (s.handlers h').dying = false) (hh : handler = h') : False := by
      rw [← hh, hdying] at hd
      cases hd
    apply h.setLooper t
    · exact h.inv.setPc t .next (s.loopers t).resumed fun _ => False.elim
    · intro h' hd _ hg
      rw [Looper.Grips, hpc] at hg
      exact (hlet h' hd hg).elim
    · intro h' hd _ _ htk
      have hh : handler = h' := by simpa [Looper.Takes, hpc] using htk
      exact (hlet h' hd hh).elim
    · exact fun _ _ => id
    · intro hr
      rw [hres] at hr
      cases hr
  · apply h.setPc t
    · intro h'
      rw [Looper.Grips, hpc]
      rfl
    · intro h' htk
      have hh : handler = h' := by simpa [Looper.Takes, hpc] using htk
      exact .inr (congrArg _ hh)
    · intro hr
      rw [hres] at hr
      cases hr

/-- **`dispatch_message`** takes the first message, and says so if there are more. -/
theorem Live.dispatch (h : s.Live l) (hpc : (s.loopers t).pc = .dispatching handler) :
    ((s.region handler none ((s.handlers handler).dispatchMessage.1, none)).setLooper t
      { s.loopers t with
        pc := if (s.handlers handler).dispatchMessage.2 then .handling handler
          else .handled handler }).Live l := by
  have hres : (s.loopers t).resumed = false := h.resumed_false fun h' => by simp [hpc]
  have hgrip (h' : H) : (s.loopers t).Grips h' ↔ handler = h' := by
    rw [Looper.Grips, hpc]
  have hcan := h.inv.grips t handler ((hgrip handler).2 rfl)
  have hpop := (h.wake handler).dispatchMessage hcan
  have hregion := h.region handler none (h.inv.pop handler hcan) (hpop.imp id id False.elim id)
  have hnew (h' : H) : Looper.Grips { s.loopers t with
      pc := if (s.handlers handler).dispatchMessage.2 then .handling handler
        else .handled handler } h' ↔ handler = h' := by
    cases (s.handlers handler).dispatchMessage.2 with
    | true => exact and_iff_left hres
    | false => exact and_iff_left hres
  apply hregion.setLooper t
  · exact hregion.inv.setPc t _ (s.loopers t).resumed fun h' hg => (hgrip h').2 ((hnew h').1 hg)
  · exact fun h' _ _ hg => (hnew h').2 ((hgrip h').1 hg)
  · intro h' hd hc hq htk
    have hh : handler = h' := by simpa [Looper.Takes, hpc] using htk
    subst hh
    rw [region_self] at hd hc hq ⊢
    exact .inr ((hpop.need hd hc hq).resolve_right id)
  · exact fun _ _ => id
  · intro hr
    rw [hres] at hr
    cases hr

theorem Live.handled (h : s.Live l) (hpc : (s.loopers t).pc = .handling handler) :
    (s.setLooper t { s.loopers t with pc := .handled handler }).Live l := by
  apply h.setPc t
  · intro h'
    rw [Looper.Grips, hpc]
    rfl
  · intro h' htk
    simp [Looper.Takes, hpc] at htk
  · exact fun _ => ⟨handler, .inr (.inl rfl)⟩

theorem Live.shortcut (h : s.Live l) {curTime : ℤ} (hpc : (s.loopers t).pc = .handled handler) :
    (s.setLooper t { s.loopers t with
      pc := if s.Shortcut t handler curTime then .dispatching handler
        else .resuming handler }).Live l := by
  have htakes (h' : H) : ¬(s.loopers t).Takes h' := by simp [Looper.Takes, hpc]
  split
  · rename_i hshort
    obtain ⟨-, hres, -⟩ := hshort
    apply h.setPc t
    · intro h'
      rw [Looper.Grips, hpc]
      exact and_iff_left hres
    · exact fun h' htk => absurd htk (htakes h')
    · intro hr
      rw [hres] at hr
      cases hr
  · apply h.setPc t
    · intro h'
      rw [Looper.Grips, hpc]
      rfl
    · exact fun h' htk => absurd htk (htakes h')
    · exact fun _ => ⟨handler, .inr (.inr rfl)⟩

omit [DecidableEq H] in
theorem takes_grips {looper : Looper H} (htk : looper.Takes handler) :
    looper.Grips handler := by
  unfold Looper.Grips
  rcases htk with htk | htk <;> rw [htk]

/-- **`ResumeScheduling`**, after which the thread has no grip on its handler. -/
theorem Live.resume (h : s.Live l) {looper : Looper H}
    (hpc : (s.loopers t).pc = .handling handler ∨ (s.loopers t).pc = .resuming handler)
    (hlooper : ∀ h', ¬looper.Grips h') (halls : looper.alls = (s.loopers t).alls)
    (hresumed : looper.resumed = true → ∃ h', looper.pc = .handling h' ∨ looper.pc = .handled h' ∨
      looper.pc = .resuming h') :
    ((s.resumeScheduling t handler).setLooper t looper).Live l := by
  have hgrip (h' : H) : (s.loopers t).Grips h' ↔ handler = h' ∧ (s.loopers t).resumed = false := by
    rcases hpc with hpc | hpc <;> rw [Looper.Grips, hpc]
  have htakes (h' : H) : ¬(s.loopers t).Takes h' := by
    rcases hpc with hpc | hpc <;> simp [Looper.Takes, hpc]
  have hinv := h.inv.resume t handler looper hlooper (by rw [halls]; exact fun _ _ => id)
    fun hr _ => (hgrip handler).2 ⟨rfl, hr⟩
  by_cases hres : (s.loopers t).resumed = true
  · have heq : s.resumeScheduling t handler = s := if_pos hres
    rw [heq] at hinv ⊢
    apply h.setLooper t looper hinv
    · intro h' _ _ hg
      rw [((hgrip h').1 hg).2] at hres
      cases hres
    · exact fun h' _ _ _ htk => absurd htk (htakes h')
    · rw [halls]
      exact fun _ _ => id
    · exact hresumed
  · have hres : (s.loopers t).resumed = false := by simpa using hres
    have hself := (hgrip handler).2 ⟨rfl, hres⟩
    rw [resumeScheduling_setLooper hres] at hinv ⊢
    refine ⟨hinv, fun h' => ?_, fun t' => ?_⟩
    · have hwake := h.wake h'
      have hall (hex : ∃ t' b, (h', b) ∈ (s.loopers t').alls) :=
        @exists_setLooper H T D s _ (fun looper => ∃ b, (h', b) ∈ looper.alls) t looper
          (by rw [halls]; exact id) hex
      by_cases hh : h' = handler
      · subst hh
        rw [region_self]
        by_cases hd : (s.handlers h').dying = true
        · exact hwake.dying_imp hd id hd hall
        · have hd : (s.handlers h').dying = false := by simpa using hd
          have hcan := h.inv.grips t h' hself hd
          refine ⟨fun _ _ hcalled hq => ?_, fun _ hc => absurd hc.symm Bool.false_ne_true,
            fun _ hc => absurd hc.symm Bool.false_ne_true, fun hgone hd' hq => ?_, hwake.gone⟩
          · -- a handler with a message needs to be scheduled, and has been called for now
            have hneed : (s.handlers h').needSchedule = true := by
              apply (hwake.need hd hcan hq).resolve_right
              rintro ⟨t', htk⟩
              rw [h.inv.alone t' t h' (takes_grips htk) hself hd] at htk
              exact htakes h' htk
            have hcalled : ((s.handlers h').calledSchedule ||
              ((s.handlers h').needSchedule && !(s.handlers h').calledSchedule)) = false := hcalled
            rw [hneed] at hcalled
            cases hc : (s.handlers h').calledSchedule <;> simp [hc] at hcalled
          · exact hall (hwake.all hgone hd' hq)
      · rw [region_of_ne hh]
        apply hwake.imp id _ _ hall
        · exact exists_setLooper (Looper.Grips · h') fun hg =>
            absurd ((hgrip h').1 hg).1.symm hh
        · exact exists_setLooper (Looper.Takes · h') fun htk => absurd htk (htakes h')
    · rw [region_loopers]
      unfold BProcess.setLooper
      dsimp only
      by_cases ht : t' = t
      · rw [ht, update_self]
        exact hresumed
      · rw [update_of_ne ht]
        exact h.resumed t'

theorem Live.threadStep (h : s.Live l) (t : T) (a : ThreadAction) (hs : s.threadStep t a = some s')
    : ∃ l', s'.Live l' := by
  unfold BProcess.threadStep at hs
  split at hs
  · rename_i handler hpc
    obtain ⟨⟩ := hs
    exact ⟨l, h.attemptAcquire hpc⟩
  · rename_i handler hpc
    obtain ⟨⟩ := hs
    exact ⟨l, h.dispatch hpc⟩
  · rename_i handler hpc
    obtain ⟨⟩ := hs
    exact ⟨l, h.handled hpc⟩
  · rename_i handler hpc
    obtain ⟨⟩ := hs
    exact ⟨l, h.shortcut hpc⟩
  · rename_i handler hpc
    obtain ⟨⟩ := hs
    exact ⟨l, h.resume (.inr hpc) (fun _ => id) rfl nofun⟩
  · rename_i hpc
    obtain ⟨⟩ := hs
    obtain ⟨l', hnext⟩ := dispatchNext_spec h.inv.holds t false _
    exact ⟨l', h.next hnext (.inr hpc)⟩
  · cases hs

theorem Live.resumeScheduling (h : s.Live l) (hcurrent : (s.loopers t).current = some handler)
    (hsafe : (s.loopers t).alls ≠ [] → (s.loopers t).resumed = true ∨
      ∃ handler, (s.loopers t).pc = .handling handler ∧ (s.handlers handler).dying = true) :
    (s.resumeScheduling t handler).Live l := by
  by_cases hres : (s.loopers t).resumed = true
  · have heq : s.resumeScheduling t handler = s := if_pos hres
    rwa [heq]
  · have hinv := h.inv.resumeScheduling hcurrent
    have hres : (s.loopers t).resumed = false := by simpa using hres
    rcases current_eq_some hcurrent with ⟨halls, hpc⟩ | ⟨alls, halls⟩
    · have hself : ((s.resumeScheduling t handler).setLooper t
          { s.loopers t with resumed := true }).Live l := by
        apply h.resume (.inl hpc)
        · intro h' hg
          rw [Looper.Grips, hpc] at hg
          cases hg.2
        · rfl
        · exact fun _ => ⟨_, .inl hpc⟩
      rw [resumeScheduling_eq hres] at hself ⊢
      simpa [BProcess.setLooper] using hself
    · -- a handler that is dying, in a `DispatchAllMessages`
      have hdying : (s.handlers handler).dying = true :=
        h.inv.alls t handler true (by rw [halls]; exact mem_cons_self)
      obtain ⟨g, hpc, hg⟩ := (hsafe (by rw [halls]; exact cons_ne_nil _ _)).resolve_left
        (by rw [hres]; exact Bool.false_ne_true)
      have hregion := h.region handler (some t) (h.inv.resume_dying (some t) hdying)
        ((h.wake handler).dying_imp hdying id hdying id)
      have hgdying : ((s.region handler (some t)
          (s.handlers handler).resumeScheduling).handlers g).dying = true := by
        by_cases hh : g = handler
        · rw [hh, region_self]
          exact hdying
        · rw [region_of_ne hh]
          exact hg
      rw [resumeScheduling_eq hres] at hinv ⊢
      apply hregion.setLooper t _ hinv
      · intro h' hd _ hgr
        rw [region_loopers, Looper.Grips, hpc] at hgr
        rw [← hgr.1, hgdying] at hd
        cases hd
      · intro h' _ _ _ htk
        rw [region_loopers] at htk
        simp [Looper.Takes, hpc] at htk
      · exact fun _ _ => id
      · exact fun _ => ⟨g, .inl hpc⟩

theorem Live.dispatchAllMessages (h : s.Live l) (t : T) (handler : H) :
    ((s.region handler (some t) (s.handlers handler).unschedule).setLooper t
      { s.loopers t with alls := (handler, false) :: (s.loopers t).alls }).Live l := by
  refine ⟨h.inv.dispatchAllMessages t handler, fun h' => ?_, fun t' => ?_⟩
  · have hwake := h.wake h'
    have hself : ∃ t' b, (handler, b) ∈ ((((s.region handler (some t)
        (s.handlers handler).unschedule).setLooper t
          { s.loopers t with alls := (handler, false) :: (s.loopers t).alls }).loopers t').alls) := by
      refine ⟨t, false, ?_⟩
      simp [BProcess.setLooper]
    rw [setLooper_handlers]
    by_cases hh : h' = handler
    · subst hh
      rw [region_self]
      exact .of_dying rfl fun _ _ => hself
    · rw [region_of_ne hh]
      apply hwake.imp id
      · exact exists_setLooper (Looper.Grips · h') id
      · exact exists_setLooper (Looper.Takes · h') id
      · exact exists_setLooper (fun looper => ∃ b, (h', b) ∈ looper.alls)
          fun hex => hex.imp fun b hb => mem_cons_of_mem _ hb
  · unfold BProcess.setLooper
    dsimp only
    by_cases ht : t' = t
    · rw [ht, update_self]
      exact h.resumed t
    · rw [update_of_ne ht]
      exact h.resumed t'

/-- **`dispatch_message`**, for `DispatchAllMessages`: it returns when there is no message left. -/
theorem Live.dispatchAll (h : s.Live l) {b : Bool} {alls : List (H × Bool)}
    (halls : (s.loopers t).alls = (handler, b) :: alls) :
    ((s.region handler none ((s.handlers handler).dispatchMessage.1, none)).setLooper t
      { s.loopers t with
        alls := if (s.handlers handler).dispatchMessage.2 then (handler, true) :: alls
          else alls }).Live l := by
  have hdying : (s.handlers handler).dying = true :=
    h.inv.alls t handler b (by rw [halls]; exact mem_cons_self)
  have hpop := h.inv.pop handler fun hd => by rw [hdying] at hd; cases hd
  have hqueue : (s.handlers handler).dispatchMessage.1.dying = true ∧
      ((s.handlers handler).dispatchMessage.1.queue ≠ [] → (s.handlers handler).queue ≠ [] ∧
        (s.handlers handler).dispatchMessage.2 = true) := by
    unfold SHandler.dispatchMessage
    split
    · rename_i hq
      exact ⟨hdying, fun hne => absurd hq hne⟩
    · exact ⟨hdying, fun _ => ⟨by simp_all, rfl⟩⟩
  have hregion := h.region handler none hpop
    ((h.wake handler).dying_imp hdying (fun hq => (hqueue.2 hq).1) hqueue.1 id)
  apply hregion.setLooper t _ (h.inv.dispatchAll halls _)
  · exact fun _ _ _ => id
  · exact fun _ _ _ _ => .inl
  · rintro h' hq ⟨b', hmem⟩
    rw [region_loopers, halls] at hmem
    by_cases hh : h' = handler
    · subst hh
      rw [region_self] at hq
      refine ⟨true, ?_⟩
      rw [(hqueue.2 hq).2, if_pos rfl]
      exact mem_cons_self
    · have hmem : (h', b') ∈ alls := by simpa [hh] using hmem
      refine ⟨b', ?_⟩
      split
      · exact mem_cons_of_mem _ hmem
      · exact hmem
  · exact hregion.resumed t

omit [DecidableEq T] in
theorem Live.release (h : s.Live l) (handler : H) :
    Live { s.region handler none (s.handlers handler).unschedule with
      gone := update s.gone handler true } l := by
  refine ⟨h.inv.release handler, fun h' => ?_, h.resumed⟩
  dsimp only
  by_cases hh : h' = handler
  · subst hh
    rw [region_self, update_self]
    exact .of_dying rfl nofun
  · rw [region_of_ne hh, update_of_ne hh]
    exact h.wake h'

/-! ### Every run -/

theorem enqueueMessage_none (message : SMessage D) (time : ℤ) (flags : ℕ) (now : ℤ)
    {handler : SHandler D} (hq : handler.queue = []) :
    (handler.enqueueMessage message time flags none now).1.queue = [] := by
  unfold SHandler.enqueueMessage
  split
  · exact hq
  · have hposted (b : Bool) : (posted message time b none now ([] : List (SMessage D))).queue = [] := by
      cases b <;> rfl
    unfold SHandler.enqueueUniqueMessage
    dsimp only
    rw [hq]
    split
    · exact hposted _
    · exact hposted _

/-- **One step.** -/
theorem Live.step {a : Action H T D} (h : s.Live l) (hs : s.step a = some s') (hsafe : s.WakeSafe a)
    : ∃ l', s'.Live l' := by
  cases a with
  | post handler message time flags new now =>
    obtain ⟨hnew, hs⟩ := Option.ite_none_right_eq_some.1 hs
    obtain ⟨⟩ := hs
    refine ⟨l, h.touch handler (touch_enqueueMessage message time flags new now _)
      (nodup_enqueueMessage message time flags new now (h.inv.nodup handler) hnew) ?_⟩
    intro hgone hd hne hq
    refine hsafe ?_ hd hgone
    rintro rfl
    exact hne (enqueueMessage_none message time flags now hq)
  | dequeue handler what =>
    obtain ⟨⟩ := hs
    refine ⟨l, h.touch handler (touch_dequeueMessage what _)
      (nodup_dequeueMessage what (h.inv.nodup handler)) ?_⟩
    intro _ _ hne hq
    have hsub := dequeueMessage_sublist what (s.handlers handler)
    rw [hq] at hsub
    exact absurd (sublist_nil.1 hsub) hne
  | filter handler functor flags now =>
    obtain ⟨⟩ := hs
    refine ⟨l, h.touch handler (touch_filterMessages functor flags now _)
      (nodup_filterMessages functor flags now (h.inv.nodup handler)) ?_⟩
    intro _ _ hne hq
    have hsub := filterMessages_sublist functor flags now (s.handlers handler)
    rw [hq] at hsub
    exact absurd (sublist_nil.1 hsub) hne
  | removeAll handler =>
    obtain ⟨⟩ := hs
    have htouch : Touch True (s.handlers handler) (s.handlers handler).removeAllMessages := .emptied
    exact ⟨l, h.touch handler htouch nodup_nil fun _ _ hne => absurd rfl hne⟩
  | call c n =>
    obtain ⟨hc, hs⟩ := Option.ite_none_right_eq_some.1 hs
    cases hkind : c.kind with
    | schedule =>
      rw [hkind] at hs
      exact h.schedule hc hkind hs
    | unschedule =>
      rw [hkind] at hs
      obtain ⟨⟩ := hs
      exact ⟨_, h.unschedule hc hkind (hsafe hkind)⟩
  | dispatchMessage t now =>
    obtain ⟨⟨-, hpc⟩, hs⟩ := Option.ite_none_right_eq_some.1 hs
    split at hs
    · obtain ⟨⟩ := hs
      exact ⟨l, h⟩
    · obtain ⟨⟩ := hs
      have hev := h.events SMessageList.infiniteTimeout (s.currentEventConcurrency + 1)
      obtain ⟨l', hnext⟩ := dispatchNext_spec hev.inv.holds t true now
      exact ⟨l', hev.next hnext (.inl hpc)⟩
  | thread t a =>
    obtain ⟨-, hs⟩ := Option.ite_none_right_eq_some.1 hs
    exact h.threadStep t a hs
  | resumeScheduling t =>
    obtain ⟨-, hs⟩ := Option.ite_none_right_eq_some.1 hs
    obtain ⟨handler, hcurrent, rfl⟩ := Option.map_eq_some_iff.1 hs
    exact ⟨l, h.resumeScheduling hcurrent hsafe⟩
  | dispatchAllMessages t handler =>
    obtain ⟨-, hs⟩ := Option.ite_none_right_eq_some.1 hs
    obtain ⟨⟩ := hs
    exact ⟨l, h.dispatchAllMessages t handler⟩
  | dispatchAll t =>
    obtain ⟨-, hs⟩ := Option.ite_none_right_eq_some.1 hs
    cases halls : (s.loopers t).alls with
    | nil =>
      rw [halls] at hs
      cases hs
    | cons frame alls =>
      rw [halls] at hs
      obtain ⟨⟩ := hs
      exact ⟨l, h.dispatchAll halls⟩
  | release handler =>
    obtain ⟨-, hs⟩ := Option.ite_none_left_eq_some.1 hs
    obtain ⟨⟩ := hs
    exact ⟨l, h.release handler⟩

/-- No step is outstanding. -/
def Quiet (s : BProcess H T D) : Prop :=
  s.calls = 0 ∧ ∀ t, (s.loopers t).pc = .idle ∧ (s.loopers t).alls = []

/-- **No handler is forgotten**: when no step is outstanding, one that has a message and is not being
destroyed is on the list, once. -/
def Awake (s : BProcess H T D) : Prop :=
  s.Quiet → ∀ h, s.gone h = false → (s.handlers h).queue ≠ [] →
    ∃ l, Linked s.links.next s.links.head l ∧ l.count h = 1

omit [DecidableEq T] in
theorem Live.awake (h : s.Live l) : s.Awake := by
  rintro ⟨hcalls, hidle⟩ handler hgone hq
  have hwake := h.wake handler
  have hdying : (s.handlers handler).dying = false := by
    by_contra hd
    obtain ⟨t, b, hmem⟩ := hwake.all hgone (by simpa using hd) hq
    rw [(hidle t).2] at hmem
    cases hmem
  have hcan : (s.handlers handler).canSchedule = true := by
    by_contra hc
    obtain ⟨t, hg⟩ := hwake.gripped hdying (by simpa using hc)
    rw [Looper.Grips, (hidle t).1] at hg
    exact hg
  have hcalled : (s.handlers handler).calledSchedule = false := by
    have hs := (h.inv.flags handler).schedules
    rw [outstanding, hcalls, Multiset.countP_zero] at hs
    by_contra hc
    rw [if_pos (by simpa using hc)] at hs
    cases hs
  have hl := hwake.listed hdying hcan hcalled hq
  exact ⟨l, h.inv.holds.forward, count_eq_one_of_mem h.inv.holds.nodup hl⟩

/-- **No wake-up is lost** in a run whose steps are safe. -/
theorem awake_of_wakeSafe (max : ℕ) (as : List (Action H T D))
    (h : AllSteps step WakeSafe (BProcess.init max) as) :
    AllStates step Awake (BProcess.init max : BProcess H T D) as := by
  apply AllStates.imp (P := fun s => ∃ l, s.Live l)
  · rintro s ⟨l, hl⟩
    exact hl.awake
  · refine AllSteps.states ?_ as _ ⟨[], .init max⟩ h
    rintro s a s' ⟨l, hl⟩ hs hsafe
    exact hl.step hs hsafe

/-- A message posted to the handler `0`. -/
def postAt (time : ℤ) (addr : ℕ) : Action ℕ ℕ Unit :=
  .post 0 { addr := addr, what := 1, when := 0, priority := 10, data := () } time 0 (some addr) 0

/-- `ScheduleHandler` of the handler `0`. -/
def callSchedule : Action ℕ ℕ Unit := .call ⟨.schedule, 0, none⟩ 1

/-- `UnscheduleHandler` of the handler `0`. -/
def callUnschedule : Action ℕ ℕ Unit := .call ⟨.unschedule, 0, none⟩ 1

/-- A handler that is emptied, posted to again, dispatched and resumed in `HandleMessage`. -/
theorem awake_of_wakeSafe_dispatch :
    AllStates step Awake (BProcess.init 4 : BProcess ℕ ℕ Unit)
      [postAt 10 1, callSchedule, .removeAll 0, callUnschedule, postAt 20 2, callSchedule,
        .dispatchMessage 0 30, .thread 0 .attemptAcquire, .thread 0 .dispatch,
        .resumeScheduling 0, .thread 0 .handled] := by
  apply awake_of_wakeSafe
  refine AllSteps.cons rfl (fun _ => nofun) ?_
  refine AllSteps.cons rfl nofun ?_
  refine AllSteps.cons rfl trivial ?_
  refine AllSteps.cons rfl (fun _ _ hq => absurd rfl hq) ?_
  refine AllSteps.cons rfl (fun _ => nofun) ?_
  refine AllSteps.cons rfl nofun ?_
  refine AllSteps.cons rfl trivial ?_
  refine AllSteps.cons rfl trivial ?_
  refine AllSteps.cons rfl trivial ?_
  refine AllSteps.cons rfl (fun hne => absurd rfl hne) ?_
  refine AllSteps.cons rfl trivial ?_
  exact trivial

/-- **A wake-up that is lost**: `RemoveAllMessages` leaves its `UnscheduleHandler` outstanding, and
it comes after the handler was posted to and scheduled again. -/
theorem not_awake :
    ¬∀ (max : ℕ) (as : List (Action ℕ ℕ Unit)), AllStates step Awake (BProcess.init max) as := by
  intro h
  have hlast := (h 4 [postAt 10 1, callSchedule, .removeAll 0, postAt 20 2, callSchedule,
    callUnschedule]).last rfl
  obtain ⟨l, hl, hcount⟩ := hlast ⟨rfl, fun _ => ⟨rfl, rfl⟩⟩ 0 rfl nofun
  rw [show l = [] from hl.unique rfl] at hcount
  cases hcount

end OpenBinder.BProcess
