import OpenBinder.Handler.Pending

/-!
# Handlers are dispatched in time order

The list of pending handlers is sorted by the time of their first messages, but for the handlers
with a call outstanding: their place is of a time that has changed. `InsertHandler` walks the list
by the times as they are, so that a handler that is put in while such a handler stands in the way
may get a place in front of one that is due before it.

* `Clean`: no call is outstanding for a handler.
* `Ordered`: the handlers of the list that are clean are sorted.
-/

namespace OpenBinder.BProcess

open Lib SHandler List

variable {H T D : Type*} [DecidableEq H]

/-- No call is outstanding for a handler. -/
def Clean (s : BProcess H T D) (handler : H) : Prop :=
  s.outstanding .schedule handler = 0 ∧ s.outstanding .unschedule handler = 0

/-- **The clean handlers are sorted** by the time of their first messages. -/
def Sorted (s : BProcess H T D) (l : List H) : Prop :=
  l.Pairwise fun g h => s.Clean g → s.Clean h → s.time g ≤ s.time h

/-- A list of handlers that the walk of `InsertHandler` stops before one of them: the first one only
if it is due later. -/
def Stops (time : H → ℤ) (msgTime : ℤ) (l : List H) (handler : H) : Prop :=
  if l.head? = some handler then msgTime < time handler else msgTime ≤ time handler

/-- **What a step observes** so that the handlers stay in order. -/
def OrderSafe (s : BProcess H T D) : Action H T D → Prop
  | .post handler message time flags new now =>
    let result := (s.handlers handler).enqueueMessage message time flags new now
    -- what removing duplicates leaves first is due between the handlers next to it
    flags &&& 1 ≠ 0 → result.2 = none → s.Clean handler →
      ∀ l, s.links.Holds l → ∀ g, s.Clean g →
        ([g, handler].Sublist l → s.time g ≤ result.1.nextMessageTime) ∧
          ([handler, g].Sublist l → result.1.nextMessageTime ≤ s.time g)
  | .call c _ =>
    -- a handler whose time has changed does not stop the walk before one that is due earlier
    c.kind = .schedule → (s.handlers c.handler).startSchedule.2 ≠ .cancelSchedule →
      s.outstanding .unschedule c.handler = 0 →
      ∀ l, s.links.Holds l → ∀ d g, [d, g].Sublist (l.erase c.handler) → ¬s.Clean d → s.Clean g →
        Stops s.time (s.time c.handler) (l.erase c.handler) d → s.time c.handler ≤ s.time g
  | _ => True

variable {s s' : BProcess H T D} {l l' : List H} {handler : H}

theorem Sorted.mono (h : s.Sorted l) (hsub : l'.Sublist l)
    (hclean : ∀ g ∈ l', s'.Clean g → s.Clean g ∧ s'.time g = s.time g) : s'.Sorted l' := by
  refine (h.sublist hsub).imp_of_mem ?_
  intro g g' hg hg' hle hc hc'
  obtain ⟨hc, ht⟩ := hclean g hg hc
  obtain ⟨hc', ht'⟩ := hclean g' hg' hc'
  rw [ht, ht']
  exact hle hc hc'

variable {result : SHandler D × Option Kind}

theorem clean_region {owner : Option T} {g : H} (hc : (s.region handler owner result).Clean g) :
    s.Clean g ∧ (g = handler → result.2 = none) := by
  obtain ⟨hs, hu⟩ := hc
  rw [region_outstanding] at hs hu
  refine ⟨⟨by omega, by omega⟩, ?_⟩
  rintro rfl
  rw [if_pos rfl] at hs hu
  cases hk : result.2 with
  | none => rfl
  | some kind =>
    rw [hk] at hs hu
    cases kind with
    | schedule => simp [asks] at hs
    | unschedule => simp [asks] at hu

/-- **A region of a handler** that is not on the list, that has a call outstanding, or whose time
stays. -/
theorem Sorted.region (h : s.Sorted l) (handler : H) (owner : Option T)
    (htime : handler ∈ l → s.Clean handler → result.2 = none →
      result.1.nextMessageTime = (s.handlers handler).nextMessageTime) :
    (s.region handler owner result).Sorted l := by
  refine h.mono (List.Sublist.refl l) fun g hg hc => ?_
  obtain ⟨hclean, hnone⟩ := clean_region hc
  refine ⟨hclean, ?_⟩
  unfold time
  by_cases hh : g = handler
  · subst hh
    rw [region_self]
    exact htime hg hclean (hnone rfl)
  · rw [region_of_ne hh]

theorem Inv.clean_flags (h : s.Inv l) (hl : handler ∈ l) (hc : s.Clean handler) :
    (s.handlers handler).FlagsOk 0 0 True := by
  have hf := h.flags handler
  rw [hc.1, hc.2] at hf
  rwa [iff_true_intro hl] at hf

theorem Sorted.touch (h : s.Sorted l) (hinv : s.Inv l) (handler : H) {fixed : Prop}
 (ht : Touch fixed (s.handlers handler) result)
    (hfixed : fixed) : (s.region handler none result).Sorted l :=
  h.region handler none fun hl hc hnone => ht.nextMessageTime (hinv.clean_flags hl hc) hnone hfixed

/-- **A post that removes duplicates** keeps the handler between the ones next to it. -/
theorem Sorted.post (h : s.Sorted l) (hlinks : s.links.Holds l) (handler : H)
    (hsafe : result.2 = none → s.Clean handler → ∀ l, s.links.Holds l → ∀ g, s.Clean g →
      ([g, handler].Sublist l → s.time g ≤ result.1.nextMessageTime) ∧
        ([handler, g].Sublist l → result.1.nextMessageTime ≤ s.time g)) :
    (s.region handler none result).Sorted l := by
  unfold Sorted at h ⊢
  rw [pairwise_iff_forall_sublist] at h ⊢
  intro g g' hsub hc hc'
  obtain ⟨hclean, hnone⟩ := clean_region hc
  obtain ⟨hclean', hnone'⟩ := clean_region hc'
  have hne : g ≠ g' := by
    rintro rfl
    have hnd := hlinks.nodup.sublist hsub
    simp at hnd
  unfold time
  by_cases hg : g = handler
  · subst hg
    rw [region_self, region_of_ne hne.symm]
    exact (hsafe (hnone rfl) hclean l hlinks g' hclean').2 hsub
  · by_cases hg' : g' = handler
    · subst hg'
      rw [region_self, region_of_ne hne]
      exact (hsafe (hnone' rfl) hclean' l hlinks g hclean).1 hsub
    · rw [region_of_ne hg, region_of_ne hg']
      exact h hsub hclean hclean'

/-! ### The outstanding calls -/

variable [DecidableEq T] {c : Call H T} {n : ℕ}

theorem clean_erase (hc : c ∈ s.calls) {g : H} (hg : g ≠ c.handler)
    (hcalls : s'.calls = s.calls.erase c) : s'.Clean g ↔ s.Clean g := by
  have hsame (kind : Kind) : s.outstanding kind g = s'.outstanding kind g := by
    rw [outstanding_erase hc kind g, if_neg hg, outstanding, outstanding, hcalls]
    rfl
  unfold Clean
  rw [hsame, hsame]

omit [DecidableEq T] in
/-- **Putting a handler in its place** keeps the order, if no handler with a call outstanding stops
the walk too early. -/
theorem Place.sorted {time : H → ℤ} {clean clean' : H → Prop} {a b : List H}
    (hplace : Place time handler a b) (hnd : (a ++ b).Nodup)
    (hsorted : (a ++ b).Pairwise fun g h => clean g → clean h → time g ≤ time h)
    (hclean : ∀ g ∈ a ++ b, clean' g → clean g)
    (hstop : clean' handler → ∀ d g, [d, g].Sublist (a ++ b) → ¬clean d → clean g →
      Stops time (time handler) (a ++ b) d → time handler ≤ time g) :
    (a ++ handler :: b).Pairwise fun g h => clean' g → clean' h → time g ≤ time h := by
  have hsorted' : (a ++ b).Pairwise fun g h => clean' g → clean' h → time g ≤ time h := by
    apply hsorted.imp_of_mem
    intro g h hg hh hle hc hc'
    exact hle (hclean g hg hc) (hclean h hh hc')
  rw [pairwise_append] at hsorted'
  obtain ⟨ha, hb, hab⟩ := hsorted'
  rw [pairwise_append, pairwise_cons]
  refine ⟨ha, ⟨fun g hg hself hc => ?_, hb⟩, fun g hg g' hg' hc hc' => ?_⟩
  · -- behind it: the walk stopped before the first one of `b`
    cases b with
    | nil => cases hg
    | cons q b =>
      have hq : time handler ≤ time q := by
        by_cases hnil : a = []
        · exact (hplace.front hnil q rfl).le
        · exact hplace.stop hnil q rfl
      rcases mem_cons.1 hg with rfl | hgb
      · exact hq
      have hsub : [q, g].Sublist (a ++ q :: b) := by
        refine List.Sublist.trans ?_ (sublist_append_right a (q :: b))
        exact (singleton_sublist.2 hgb).cons_cons q
      have hcg : clean g := hclean g (by simp [hgb]) hc
      by_cases hcq : clean q
      · exact hq.trans (pairwise_iff_forall_sublist.1 hsorted hsub hcq hcg)
      · refine hstop hself q g hsub hcq hcg ?_
        unfold Stops
        split
        · rename_i hhead
          apply hplace.front _ q rfl
          by_contra hnil
          have hqa : q ∈ a := by
            cases a with
            | nil => exact absurd rfl hnil
            | cons p a =>
              obtain rfl : p = q := Option.some.inj hhead
              exact mem_cons_self
          exact (Linked.notMem_of_nodup hnd).1 hqa
        · exact hq
  · rcases mem_cons.1 hg' with rfl | hgb
    · cases a with
      | nil => cases hg
      | cons p a =>
        rcases mem_cons.1 hg with rfl | hga
        · exact hplace.first g rfl
        · exact (hplace.behind g hga).le
    · exact hab g hg g' hgb hc hc'

theorem Inv.schedule_sorted (hinv : s.Inv l) (hc : c ∈ s.calls) (hkind : c.kind = .schedule)
    (hs : scheduleHandler n c.handler { s with calls := s.calls.erase c } = some s') :
    ∃ l', s'.Inv l' ∧ (s.Sorted l →
      ((s.handlers c.handler).startSchedule.2 ≠ .cancelSchedule →
        s.outstanding .unschedule c.handler = 0 →
        ∀ l, s.links.Holds l → ∀ d g, [d, g].Sublist (l.erase c.handler) → ¬s.Clean d →
          s.Clean g → Stops s.time (s.time c.handler) (l.erase c.handler) d →
          s.time c.handler ≤ s.time g) → s'.Sorted l') := by
  obtain ⟨handler', l', links', eventTime, hsch, heq, hinv'⟩ := hinv.schedule hc hkind hs
  obtain ⟨need, hneed⟩ := startSchedule_fst (s.handlers c.handler)
  have hqueue : handler'.queue = (s.handlers c.handler).queue := by
    cases hsch with
    | off heq => rw [hneed]
    | on hne a b hab hplace =>
      rw [hneed]
      rfl
  have htime (g : H) : s'.time g = s.time g := by
    rw [heq]
    unfold time SHandler.nextMessageTime
    dsimp only
    by_cases hg : g = c.handler
    · rw [hg, Function.update_self, hqueue]
    · rw [Function.update_of_ne hg]
  have hcalls : s'.calls = s.calls.erase c := by rw [heq]
  have hother (g : H) (hg : g ∈ l.erase c.handler) : s'.Clean g ↔ s.Clean g :=
    clean_erase hc (fun hgc => hinv.holds.nodup.not_mem_erase (hgc ▸ hg)) hcalls
  refine ⟨l', hinv', fun h hsafe => ?_⟩
  cases hsch with
  | off hoff =>
    exact h.mono erase_sublist fun g hg hcg => ⟨(hother g hg).1 hcg, htime g⟩
  | on hne a b hab hplace =>
    have hsub : (a ++ b).Sublist l := hab ▸ erase_sublist
    have hsorted : (a ++ c.handler :: b).Pairwise fun g g' =>
        s'.Clean g → s'.Clean g' → s.time g ≤ s.time g' := by
      apply hplace.sorted (hinv.holds.nodup.sublist hsub) (h.sublist hsub)
      · intro g hg hcg
        exact (hother g (hab ▸ hg)).1 hcg
      · intro hself
        rw [← hab]
        refine hsafe hne ?_ l hinv.holds
        rw [outstanding_erase hc, hkind, if_pos rfl, outstanding, ← hcalls]
        exact hself.2
    unfold Sorted
    simp only [htime]
    exact hsorted

theorem Sorted.unschedule (h : s.Sorted l) (hinv : s.Inv l) (hc : c ∈ s.calls) :
    Sorted { s with
      calls := s.calls.erase c
      links := unscheduleHandler s.links c.handler } (l.erase c.handler) := by
  refine h.mono erase_sublist fun g hg hcg => ⟨?_, rfl⟩
  exact (clean_erase hc (fun hgc => hinv.holds.nodup.not_mem_erase (hgc ▸ hg)) rfl).1 hcg

/-! ### The threads -/

theorem Sorted.setLooper (h : s.Sorted l) (t : T) (looper : Looper H) :
    (s.setLooper t looper).Sorted l := h

omit [DecidableEq T] in
/-- **A message is taken** only of a handler that is not on the list, or that a call is outstanding
for. -/
theorem Sorted.pop (h : s.Sorted l) (hinv : s.Inv l) (handler : H)
    (hcan : (s.handlers handler).dying = false → (s.handlers handler).canSchedule = false) :
    (s.region handler none ((s.handlers handler).dispatchMessage.1, none)).Sorted l := by
  apply h.region handler none
  intro hl hc _
  have hf := hinv.clean_flags hl hc
  have hdying : (s.handlers handler).dying = false := by
    by_contra hd
    exact absurd (hf.dying (by simpa using hd) trivial) (lt_irrefl 0)
  have hon := hf.can hdying trivial
  rw [hcan hdying] at hon
  cases hon

theorem Sorted.resume (h : s.Sorted l) (t : T) (handler : H) :
    (s.resumeScheduling t handler).Sorted l := by
  unfold BProcess.resumeScheduling
  split
  · exact h
  · apply Sorted.setLooper
    apply h.region handler (some t)
    exact fun _ _ _ => rfl

theorem Sorted.next {t : T} (hn : Next s t l l' s') (h : s.Sorted l) : s'.Sorted l' := by
  cases hn with
  | leave l time concurrency => exact h
  | take handler l time =>
    refine h.mono (sublist_cons_self _ _) fun g hg hc => ⟨hc, ?_⟩
    unfold BProcess.time
    dsimp only
    by_cases hh : g = handler
    · rw [hh, Function.update_self]
      rfl
    · rw [Function.update_of_ne hh]

theorem Inv.threadStep (h : s.Inv l) (t : T) (a : ThreadAction)
    (hs : s.threadStep t a = some s') : ∃ l', s'.Inv l' ∧ (s.Sorted l → s'.Sorted l') := by
  unfold BProcess.threadStep at hs
  split at hs
  · rename_i handler hpc
    obtain ⟨⟩ := hs
    refine ⟨l, h.setPc t _ (s.loopers t).resumed fun h' hg => ?_,
      fun hsorted => hsorted.setLooper t _⟩
    split at hg
    · exact hg.elim
    · rw [Looper.Grips, hpc]
      exact hg
  · rename_i handler hpc
    obtain ⟨⟩ := hs
    have hcan := h.grips t handler (by rw [Looper.Grips, hpc])
    refine ⟨l, (h.pop handler hcan).setPc t _ (s.loopers t).resumed fun h' hg => ?_,
      fun hsorted => (hsorted.pop h handler hcan).setLooper t _⟩
    rw [region_loopers, Looper.Grips, hpc]
    split at hg
    · exact hg.1
    · exact hg.1
  · rename_i handler hpc
    obtain ⟨⟩ := hs
    refine ⟨l, h.setPc t _ (s.loopers t).resumed fun h' hg => ?_,
      fun hsorted => hsorted.setLooper t _⟩
    rw [Looper.Grips, hpc]
    exact hg
  · rename_i handler hpc
    obtain ⟨⟩ := hs
    refine ⟨l, h.setPc t _ (s.loopers t).resumed fun h' hg => ?_,
      fun hsorted => hsorted.setLooper t _⟩
    rw [Looper.Grips, hpc]
    split at hg
    · rename_i hshort
      exact ⟨hg, hshort.2.1⟩
    · exact hg
  · rename_i handler hpc
    obtain ⟨⟩ := hs
    refine ⟨l, ?_, fun hsorted => (hsorted.resume t handler).setLooper t _⟩
    apply h.resume t handler
    · exact fun _ => id
    · exact fun _ _ => id
    · intro hres _
      rw [Looper.Grips, hpc]
      exact ⟨rfl, hres⟩
  · rename_i hpc
    obtain ⟨⟩ := hs
    obtain ⟨l', hnext⟩ := dispatchNext_spec h.holds t false _
    exact ⟨l', hnext.inv h, fun hsorted => hsorted.next hnext⟩
  · cases hs

/-! ### Every run -/

/-- **One step.** The list stays well formed, and sorted where it was and the step is safe. -/
theorem Inv.keep (h : s.Inv l) {a : Action H T D} (hs : s.step a = some s') :
    ∃ l', s'.Inv l' ∧ (s.Sorted l → s.OrderSafe a → s'.Sorted l') := by
  cases a with
  | post handler message time flags new now =>
    obtain ⟨hnew, hs⟩ := Option.ite_none_right_eq_some.1 hs
    obtain ⟨⟩ := hs
    have htouch := touch_enqueueMessage message time flags new now (s.handlers handler)
    refine ⟨l, h.touch handler htouch
      (nodup_enqueueMessage message time flags new now (h.nodup handler) hnew),
      fun hsorted hsafe => ?_⟩
    by_cases hflags : flags &&& 1 = 0
    · exact hsorted.touch h handler htouch hflags
    · exact hsorted.post h.holds handler (hsafe hflags)
  | dequeue handler what =>
    obtain ⟨⟩ := hs
    have htouch := touch_dequeueMessage what (s.handlers handler)
    exact ⟨l, h.touch handler htouch (nodup_dequeueMessage what (h.nodup handler)),
      fun hsorted _ => hsorted.touch h handler htouch (h.nodup handler)⟩
  | filter handler functor flags now =>
    obtain ⟨⟩ := hs
    have htouch := touch_filterMessages functor flags now (s.handlers handler)
    exact ⟨l, h.touch handler htouch (nodup_filterMessages functor flags now (h.nodup handler)),
      fun hsorted _ => hsorted.touch h handler htouch (h.nodup handler)⟩
  | removeAll handler =>
    obtain ⟨⟩ := hs
    have htouch : Touch True (s.handlers handler) (s.handlers handler).removeAllMessages := .emptied
    exact ⟨l, h.touch handler htouch nodup_nil,
      fun hsorted _ => hsorted.touch h handler htouch trivial⟩
  | call c n =>
    obtain ⟨hc, hs⟩ := Option.ite_none_right_eq_some.1 hs
    cases hkind : c.kind with
    | schedule =>
      rw [hkind] at hs
      obtain ⟨l', hinv, hkeep⟩ := h.schedule_sorted hc hkind hs
      exact ⟨l', hinv, fun hsorted hsafe => hkeep hsorted (hsafe hkind)⟩
    | unschedule =>
      rw [hkind] at hs
      obtain ⟨⟩ := hs
      exact ⟨_, h.unschedule hc hkind, fun hsorted _ => hsorted.unschedule h hc⟩
  | dispatchMessage t now =>
    obtain ⟨-, hs⟩ := Option.ite_none_right_eq_some.1 hs
    split at hs
    · obtain ⟨⟩ := hs
      exact ⟨l, h, fun hsorted _ => hsorted⟩
    · obtain ⟨⟩ := hs
      have hev := h.events SMessageList.infiniteTimeout (s.currentEventConcurrency + 1)
      obtain ⟨l', hnext⟩ := dispatchNext_spec hev.holds t true now
      exact ⟨l', hnext.inv hev, fun hsorted _ => Sorted.next hnext hsorted⟩
  | thread t a =>
    obtain ⟨-, hs⟩ := Option.ite_none_right_eq_some.1 hs
    obtain ⟨l', hinv, hkeep⟩ := h.threadStep t a hs
    exact ⟨l', hinv, fun hsorted _ => hkeep hsorted⟩
  | resumeScheduling t =>
    obtain ⟨-, hs⟩ := Option.ite_none_right_eq_some.1 hs
    obtain ⟨handler, hcurrent, rfl⟩ := Option.map_eq_some_iff.1 hs
    exact ⟨l, h.resumeScheduling hcurrent, fun hsorted _ => hsorted.resume t handler⟩
  | dispatchAllMessages t handler =>
    obtain ⟨-, hs⟩ := Option.ite_none_right_eq_some.1 hs
    obtain ⟨⟩ := hs
    refine ⟨l, h.dispatchAllMessages t handler, fun hsorted _ => Sorted.setLooper ?_ t _⟩
    exact hsorted.region handler (some t) fun _ _ _ => rfl
  | dispatchAll t =>
    obtain ⟨-, hs⟩ := Option.ite_none_right_eq_some.1 hs
    cases halls : (s.loopers t).alls with
    | nil =>
      rw [halls] at hs
      cases hs
    | cons frame alls =>
      rw [halls] at hs
      obtain ⟨⟩ := hs
      refine ⟨l, h.dispatchAll halls _, fun hsorted _ => Sorted.setLooper ?_ t _⟩
      apply hsorted.pop h
      intro hd
      rw [h.alls t frame.1 frame.2 (by rw [halls]; exact mem_cons_self)] at hd
      cases hd
  | release handler =>
    obtain ⟨-, hs⟩ := Option.ite_none_left_eq_some.1 hs
    obtain ⟨⟩ := hs
    refine ⟨l, h.release handler, fun hsorted _ => ?_⟩
    exact hsorted.region handler none fun _ _ _ => rfl

theorem Inv.step (h : s.Inv l) (hsorted : s.Sorted l) {a : Action H T D}
    (hs : s.step a = some s') (hsafe : s.OrderSafe a) : ∃ l', s'.Inv l' ∧ s'.Sorted l' := by
  obtain ⟨l', hinv, hkeep⟩ := h.keep hs
  exact ⟨l', hinv, hkeep hsorted hsafe⟩

/-- No call is outstanding and no thread is in `DispatchMessage`. -/
def Settled (s : BProcess H T D) : Prop := s.calls = 0 ∧ ∀ t, (s.loopers t).pc = .idle

/-- **Dispatched in time order**: when no step is outstanding, the list is well formed in both
directions and sorted, so that its first handler is one that is due earliest. -/
def InTimeOrder (s : BProcess H T D) : Prop :=
  s.Settled → ∃ l, s.links.Holds l ∧ (l.Pairwise fun g h => s.time g ≤ s.time h) ∧
    ∀ first ∈ s.links.head, ∀ g ∈ l, s.time first ≤ s.time g

omit [DecidableEq T] in
theorem Inv.inTimeOrder (h : s.Inv l) (hsorted : s.Sorted l) : s.InTimeOrder := by
  rintro ⟨hcalls, -⟩
  have hclean (g : H) : s.Clean g := by
    unfold Clean outstanding
    rw [hcalls]
    exact ⟨rfl, rfl⟩
  have hpair : l.Pairwise fun g h => s.time g ≤ s.time h :=
    hsorted.imp fun hle => hle (hclean _) (hclean _)
  refine ⟨l, h.holds, hpair, fun first hfirst g hg => ?_⟩
  rw [h.holds.head] at hfirst
  cases l with
  | nil => cases hg
  | cons p l =>
    obtain rfl : p = first := Option.some.inj hfirst
    rcases mem_cons.1 hg with rfl | hg
    · exact le_rfl
    · exact (pairwise_cons.1 hpair).1 g hg

/-- **Handlers stay in time order** in a run whose steps are safe. -/
theorem inTimeOrder_of_orderSafe (max : ℕ) (as : List (Action H T D))
    (h : AllSteps step OrderSafe (BProcess.init max) as) :
    AllStates step InTimeOrder (BProcess.init max : BProcess H T D) as := by
  apply AllStates.imp (P := fun s => ∃ l, s.Inv l ∧ s.Sorted l)
  · rintro s ⟨l, hl, hsorted⟩
    exact hl.inTimeOrder hsorted
  · refine AllSteps.states ?_ as _ ⟨[], .init max, List.Pairwise.nil⟩ h
    rintro s a s' ⟨l, hl, hsorted⟩ hs hsafe
    exact hl.step hsorted hs hsafe

/-- A message posted to a handler. -/
def postTo (handler : ℕ) (time : ℤ) (flags addr : ℕ) : Action ℕ ℕ Unit :=
  .post handler { addr := addr, what := 1, when := 0, priority := 10, data := () } time flags
    (some addr) 0

/-- `ScheduleHandler` of a handler. -/
def callFor (handler : ℕ) : Action ℕ ℕ Unit := .call ⟨.schedule, handler, none⟩ 4

omit [DecidableEq H] in
theorem not_pair_sublist {d g : H} (hl : l.length ≤ 1) : ¬[d, g].Sublist l := by
  intro h
  have := h.length_le
  simp at this
  omega

/-- Two handlers, of which one is posted to again with its duplicates removed. -/
theorem inTimeOrder_of_orderSafe_two :
    AllStates step InTimeOrder (BProcess.init 4 : BProcess ℕ ℕ Unit)
      [postTo 0 10 0 1, callFor 0, postTo 1 5 0 2, callFor 1, postTo 1 3 1 3, callFor 1,
        .dispatchMessage 0 7] := by
  apply inTimeOrder_of_orderSafe
  refine AllSteps.cons rfl (fun hf => absurd rfl hf) ?_
  refine AllSteps.cons rfl (fun _ _ _ l hl d g hsub => ?_) ?_
  · rw [show l = [] from hl.forward.unique rfl] at hsub
    exact absurd hsub (not_pair_sublist (by decide))
  refine AllSteps.cons rfl (fun hf => absurd rfl hf) ?_
  refine AllSteps.cons rfl (fun _ _ _ l hl d g hsub => ?_) ?_
  · rw [show l = [0] from hl.forward.unique ⟨rfl, rfl⟩] at hsub
    exact absurd hsub (not_pair_sublist (by decide))
  refine AllSteps.cons rfl (fun _ hnone => nomatch hnone) ?_
  refine AllSteps.cons rfl (fun _ _ _ l hl d g hsub => ?_) ?_
  · rw [show l = [1, 0] from hl.forward.unique ⟨rfl, rfl, rfl⟩] at hsub
    exact absurd hsub (not_pair_sublist (by decide))
  refine AllSteps.cons rfl trivial ?_
  exact trivial

/-- **An order that is lost**: the handler `1` is due later than its place says when `3` is put in
before it, which so stands in front of `2` that is due earlier. -/
theorem not_inTimeOrder : ¬∀ (max : ℕ) (as : List (Action ℕ ℕ Unit)),
    AllStates step InTimeOrder (BProcess.init max) as := by
  intro h
  have hlast := (h 4 [postTo 0 1 0 1, callFor 0, postTo 1 2 0 2, callFor 1, postTo 1 20 0 3,
    postTo 2 5 0 4, callFor 2, .dequeue 1 0, postTo 3 7 0 5, callFor 3, callFor 1]).last rfl
  obtain ⟨l, hl, hsorted, -⟩ := hlast ⟨rfl, fun _ => rfl⟩
  rw [show l = [0, 3, 2, 1] from hl.forward.unique ⟨rfl, rfl, rfl, rfl, rfl⟩] at hsorted
  have hle := pairwise_iff_forall_sublist.1 hsorted
    (show [3, 2].Sublist [0, 3, 2, 1] by decide)
  exact absurd hle (by decide)

end OpenBinder.BProcess
