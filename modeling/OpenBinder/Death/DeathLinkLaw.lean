import OpenBinder.Death.DeathLink

/-!
# Deaths are reported once

Whatever the threads do, an obituary that was given to a proxy is in one place: registered, with a
thread that is about to report it, removed, reported or missed, or refused. `LinkToDeath` says that
it is registered by the place that it has among the others, which is `B_OK` for the first one only.

* `unlinkLoop_eq`: the loop of `UnlinkToDeath` removes those that match.
* `Inv.step`: no step loses an obituary or takes it twice.
* `exact_run_iff`: the runs that do what is claimed.
-/

namespace OpenBinder.BpBinder

open Lib List

variable {T : Type}

theorem unlinkLoop_eq (found : Filed T → Bool) : ∀ (rest front : List (Filed T)) (any : Bool),
    (unlinkLoop found front rest any).1.getD [] = front ++ rest.filter (!found ·) ∧
      (unlinkLoop found front rest any).2 = (any || rest.any found) := by
  intro rest
  induction rest with
  | nil => intro front any; simp [unlinkLoop]
  | cons o rest ih =>
    intro front any
    rw [unlinkLoop]
    by_cases ho : found o = true
    · rw [if_pos ho]
      split
      · rename_i hone
        -- it is the last one
        obtain rfl : front = [] := eq_nil_of_length_eq_zero (by omega)
        obtain rfl : rest = [] := eq_nil_of_length_eq_zero (by omega)
        simp [ho]
      · obtain ⟨h1, h2⟩ := ih front true
        simp [h1, h2, ho]
    · obtain ⟨h1, h2⟩ := ih (front ++ [o]) any
      rw [if_neg ho]
      simp [h1, h2, ho]

/-! ### Counting -/

/-- How often a number is among obituaries. -/
def times (n : ℕ) (obits : List (Filed T)) : ℕ := (obits.map Filed.number).count n

@[simp] theorem times_nil (n : ℕ) : times n ([] : List (Filed T)) = 0 := rfl

@[simp] theorem times_append (n : ℕ) (a b : List (Filed T)) :
    times n (a ++ b) = times n a + times n b := by
  unfold times
  rw [map_append, count_append]

theorem times_cons (n : ℕ) (o : Filed T) (obits : List (Filed T)) :
    times n (o :: obits) = times n [o] + times n obits :=
  times_append n [o] obits

theorem times_filter (n : ℕ) (found : Filed T → Bool) (obits : List (Filed T)) :
    times n (obits.filter found) + times n (obits.filter (!found ·)) = times n obits := by
  induction obits with
  | nil => rfl
  | cons o obits ih =>
    by_cases ho : found o = true
    · simp only [filter_cons, ho, Bool.not_true, if_true, Bool.false_eq_true, if_false]
      rw [times_cons, times_cons n o obits, ← ih, Nat.add_assoc]
    · simp only [Bool.not_eq_true] at ho
      simp only [filter_cons, ho, Bool.not_false, if_true, Bool.false_eq_true, if_false]
      rw [times_cons, times_cons n o obits, ← ih]
      omega

variable {frame : Frame T} {o : Filed T}

theorem times_frames {frames : List (Frame T)} {thread : ℕ} (h : frames[thread]? = some frame)
    (n : ℕ) : times n (frames.flatMap Frame.obits) =
      times n frame.obits + times n ((frames.eraseIdx thread).flatMap Frame.obits) := by
  obtain ⟨hlt, rfl⟩ := List.getElem?_eq_some_iff.1 h
  have hperm := ((getElem_cons_eraseIdx_perm hlt).symm.flatMap_right Frame.obits).map Filed.number
  unfold times
  rw [hperm.count_eq n, flatMap_cons, map_append, count_append]

theorem times_places (n : ℕ) (s : Proxy T) : times n s.places =
    times n s.held + times n s.carried + times n s.removed + times n s.told + times n s.refused := by
  unfold Proxy.places
  rw [times_append, times_append, times_append, times_append]

/-- **The invariant**: what is claimed, and that only obituaries that were given are spoken of. -/
structure Inv (s : Proxy T) : Prop extends Accounted s where
  fresh : ∀ o status, .linked o status ∈ s.log → o.number < s.count

variable {s s' : Proxy T}

theorem Accounted.times (h : Accounted s) (n : ℕ) :
    BpBinder.times n s.places = (List.range s.count).count n := h.once.count_eq n

theorem once_of_times (h : ∀ n, times n s.places = (List.range s.count).count n) :
    (s.places.map Filed.number).Perm (List.range s.count) := perm_iff_count.2 h

theorem times_range_succ (n m : ℕ) :
    (List.range (m + 1)).count n = (List.range m).count n + [m].count n := by
  rw [range_succ, count_append]

section Events

variable {e : Event T} {o : Filed T} {status : ℤ} {calls : Option (List DeathCall)}

variable {obits : List (Filed T)}

@[simp] theorem removed_linked : (Event.linked o status).removed = [] := rfl
@[simp] theorem removed_reported : (Event.reported o calls).removed = [] := rfl
@[simp] theorem removed_missed : (Event.missed o).removed = [] := rfl
@[simp] theorem removed_unlinked :
    (Event.unlinked obits status).removed = obits := rfl
@[simp] theorem told_linked : (Event.linked o status).told = [] := rfl
@[simp] theorem told_unlinked : (Event.unlinked obits status).told = [] := rfl
@[simp] theorem refused_unlinked :
    (Event.unlinked obits status).refused = [] := rfl
@[simp] theorem refused_noMemory : (Event.linked o noMemory).refused = [o] := by
  rw [Event.refused, if_pos rfl]
@[simp] theorem refused_place (n : ℕ) : (Event.linked o n).refused = [] := by
  have hneg : noMemory < 0 := by decide
  have hne : ((n : ℕ) : ℤ) ≠ noMemory := by omega
  rw [Event.refused, if_neg hne]
@[simp] theorem refused_dead : (Event.linked o binderDead).refused = [] := by
  have hne : binderDead ≠ noMemory := by decide
  rw [Event.refused, if_neg hne]

variable [DecidableEq T] {self : SValue} {gone : List T}

@[simp] theorem removed_report : (report self gone o).removed = [] := by
  unfold report
  split <;> rfl
@[simp] theorem told_report : (report self gone o).told = [o] := by
  unfold report
  split <;> rfl
@[simp] theorem refused_report : (report self gone o).refused = [] := by
  unfold report
  split <;> rfl

end Events

theorem Inv.init : Inv (Proxy.init : Proxy T) where
  once := List.Perm.refl _
  dead := fun _ => rfl
  alive := fun _ => ⟨rfl, rfl⟩
  missed := fun _ h => absurd h not_mem_nil
  fresh := fun _ _ h => absurd h not_mem_nil

/-- **A step that moves obituaries**, and adds to the log what it does not say too much of: what
leaves a place or is new comes to another. -/
theorem Inv.move (h : Inv s) {alive : Bool} {obituaries : Option (List (Filed T))}
    {frames : List (Frame T)} {events log : List (Event T)} {count : ℕ} (hlog : log = s.log ++ events)
    (hle : s.count ≤ count)
    (honce : ∀ n, times n (obituaries.getD []) + times n (frames.flatMap Frame.obits) +
      times n (events.flatMap Event.removed) + times n (events.flatMap Event.told) +
      times n (events.flatMap Event.refused) + (List.range s.count).count n =
        times n s.held + times n s.carried + (List.range count).count n)
    (hdead : alive = false → obituaries.getD [] = [])
    (halive : alive = true → s.alive = true ∧ frames.flatMap Frame.obits = [] ∧
      events.flatMap Event.told = [])
    (hmissed : ∀ o, .missed o ∈ events → o.obit.target ∈ s.gone)
    (hfresh : ∀ o status, .linked o status ∈ events → o.number < count) :
    Inv ⟨alive, obituaries, frames, s.gone, log, count⟩ where
  once := by
    apply once_of_times
    intro n
    have hn := h.times n
    have hmove := honce n
    rw [times_places] at hn ⊢
    simp only [Proxy.held, Proxy.carried, Proxy.removed, Proxy.told, Proxy.refused, hlog,
      flatMap_append, times_append] at hn hmove ⊢
    omega
  dead := hdead
  alive := by
    intro ha
    obtain ⟨hs, hcarried, htold⟩ := halive ha
    refine ⟨hcarried, ?_⟩
    show log.flatMap Event.told = []
    rw [hlog, flatMap_append]
    exact append_eq_nil_iff.2 ⟨(h.alive hs).2, htold⟩
  missed := by
    intro o ho
    replace ho : .missed o ∈ s.log ++ events := hlog ▸ ho
    exact (mem_append.1 ho).elim (h.missed o) (hmissed o)
  fresh := by
    intro o status ho
    replace ho : .linked o status ∈ s.log ++ events := hlog ▸ ho
    exact (mem_append.1 ho).elim (fun ho => (h.fresh o status ho).trans_le hle) (hfresh o status)

theorem Inv.number_lt (h : Inv s) (ho : o ∈ s.places) : o.number < s.count := by
  have hmem : o.number ∈ s.places.map Filed.number := mem_map_of_mem ho
  exact mem_range.1 (h.once.mem_iff.1 hmem)

theorem Inv.quiet (h : Inv s) (ha : s.alive = true) : s.frames.flatMap Frame.obits = [] :=
  (h.alive ha).1

theorem live_elim {P : Prop} (ha : s.alive = true) (hd : s.alive = false) : P :=
  absurd (ha.symm.trans hd) (by decide)

theorem Inv.link (h : Inv s) (obit : Obituary T) (newOk addOk : Bool) :
    Inv ({ s with count := s.count + 1 }.link ⟨s.count, obit⟩ newOk addOk) := by
  -- the new one is alone with its number
  have hnew : ∀ n, times n [(⟨s.count, obit⟩ : Filed T)] = [s.count].count n := fun _ => rfl
  -- it is registered or refused
  have hanswer : s.alive = true → ∀ obituaries status, (∀ n, times n (obituaries.getD []) +
      times n (Event.linked (⟨s.count, obit⟩ : Filed T) status).refused =
        times n s.held + times n [(⟨s.count, obit⟩ : Filed T)]) →
      Inv ⟨s.alive, obituaries, s.frames, s.gone, s.log ++ [.linked ⟨s.count, obit⟩ status],
        s.count + 1⟩ := by
    intro halive obituaries status htimes
    refine h.move rfl (Nat.le_succ _) ?_ (live_elim halive) (fun _ => ⟨halive, h.quiet halive, rfl⟩)
      ?_ ?_
    · intro n
      have hn := htimes n
      rw [times_range_succ, ← hnew]
      simp only [Proxy.carried, flatMap_cons, flatMap_nil, append_nil,
        removed_linked, told_linked, times_nil]
      omega
    · intro o ho
      cases mem_singleton.1 ho
    · intro o status ho
      cases mem_singleton.1 ho
      exact Nat.lt_succ_self _
  unfold Proxy.link
  split
  · rename_i halive
    split
    · rename_i hnone
      apply hanswer halive
      intro n
      rw [refused_noMemory, Proxy.held]
    · split
      · apply hanswer halive
        intro n
        rw [refused_place, Option.getD_some, times_append, times_nil, Proxy.held, Nat.add_zero]
      · apply hanswer halive
        intro n
        rw [refused_noMemory, Option.getD_some, Proxy.held]
  · rename_i hdead
    refine h.move (append_nil _).symm (Nat.le_succ _) ?_ h.dead (fun ha => absurd ha hdead)
      (fun _ ho => absurd ho not_mem_nil) (fun _ _ ho => absurd ho not_mem_nil)
    intro n
    rw [times_range_succ, ← hnew]
    simp only [Proxy.held, Proxy.carried, Frame.obits, flatMap_append, flatMap_cons,
      flatMap_nil, append_nil, times_append, times_nil]
    omega

variable [DecidableEq T] {self : SValue}

theorem unlink_eq (s : Proxy T) (target : T) (method : SValue) (flags : BitVec 32) :
    ∃ obituaries, ∃ status : ℤ, s.unlink target method flags = { s with
        obituaries := obituaries
        log := s.log ++ [.unlinked (s.held.filter (Filed.matches target method flags)) status] } ∧
      obituaries.getD [] = s.held.filter (!Filed.matches target method flags ·) ∧
      (status = 0 ↔ s.held.any (Filed.matches target method flags) = true) := by
  unfold Proxy.unlink Proxy.held
  rcases s.obituaries with - | obits
  · have hne : nameNotFound ≠ 0 := by decide
    exact ⟨none, nameNotFound, rfl, rfl, fun h => absurd h hne, fun h => absurd h (by simp)⟩
  · obtain ⟨hleft, hfound⟩ := unlinkLoop_eq (Filed.matches target method flags) obits [] false
    refine ⟨_, _, rfl, hleft, ?_⟩
    rw [hfound, Bool.false_or, Option.getD_some]
    by_cases hany : obits.any (Filed.matches target method flags) = true
    · rw [if_pos hany]
      exact ⟨fun _ => hany, fun _ => rfl⟩
    · rw [if_neg hany]
      exact ⟨fun h => absurd h (by decide), fun h => absurd h hany⟩

theorem Inv.unlink (h : Inv s) (target : T) (method : SValue) (flags : BitVec 32) :
    Inv (s.unlink target method flags) := by
  obtain ⟨obituaries, status, heq, hleft, -⟩ := unlink_eq s target method flags
  rw [heq]
  refine h.move rfl le_rfl ?_ ?_ (fun ha => ⟨ha, h.quiet ha, rfl⟩) ?_ ?_
  · intro n
    have hfilter := times_filter n (Filed.matches target method flags) s.held
    rw [hleft]
    simp only [Proxy.carried, flatMap_cons, flatMap_nil, append_nil,
      removed_unlinked, told_unlinked, refused_unlinked, times_nil]
    omega
  · intro hd
    rw [hleft, h.dead hd, filter_nil]
  · intro o ho
    cases mem_singleton.1 ho
  · intro o status ho
    cases mem_singleton.1 ho

omit [DecidableEq T] in
theorem Inv.dead_of_carried (h : Inv s) {thread : ℕ} (hframe : s.frames[thread]? = some frame)
    (ho : o ∈ frame.obits) :
    s.alive = false := by
  rw [← Bool.not_eq_true]
  intro ha
  have hmem : o ∈ s.frames.flatMap Frame.obits :=
    mem_flatMap.2 ⟨frame, mem_of_getElem? hframe, ho⟩
  rw [h.quiet ha] at hmem
  exact absurd hmem not_mem_nil

omit [DecidableEq T] in
theorem Inv.lt_of_carried (h : Inv s) {thread : ℕ} (hframe : s.frames[thread]? = some frame)
    (ho : o ∈ frame.obits) :
    o.number < s.count := by
  apply h.number_lt
  have hmem : o ∈ s.carried := mem_flatMap.2 ⟨frame, mem_of_getElem? hframe, ho⟩
  unfold Proxy.places
  simp only [mem_append]
  exact .inl (.inl (.inl (.inr hmem)))

omit [DecidableEq T] in
theorem Inv.thread (h : Inv s) {thread : ℕ} {frame : Frame T}
    (hframe : s.frames[thread]? = some frame) (more : List (Frame T)) {events log : List (Event T)}
    (hlog : log = s.log ++ events)
    (htimes : ∀ n, times n (more.flatMap Frame.obits) + times n (events.flatMap Event.removed) +
      times n (events.flatMap Event.told) + times n (events.flatMap Event.refused) =
        times n frame.obits)
    (hmissed : ∀ o, .missed o ∈ events → o.obit.target ∈ s.gone)
    (hfresh : ∀ o status, .linked o status ∈ events → o.number < s.count) :
    Inv ⟨s.alive, s.obituaries, s.frames.eraseIdx thread ++ more, s.gone, log, s.count⟩ := by
  have hcarried := times_frames hframe
  refine h.move hlog le_rfl ?_ h.dead ?_ hmissed hfresh
  · intro n
    have hn := htimes n
    rw [flatMap_append, times_append, Proxy.carried, hcarried n]
    simp only [Proxy.held]
    omega
  · intro ha
    -- no one carries anything, so nothing is spoken of
    have hnone : ∀ n, times n s.carried = 0 := by
      intro n
      rw [Proxy.carried, h.quiet ha, times_nil]
    have hempty : ∀ obits : List (Filed T), (∀ n, times n obits = 0) → obits = [] := by
      intro obits hobits
      apply eq_nil_iff_forall_not_mem.2
      intro o ho
      have hmem : o.number ∈ obits.map Filed.number := mem_map_of_mem ho
      exact absurd (count_pos_iff.2 hmem) (by rw [← times, hobits]; exact Nat.lt_irrefl 0)
    refine ⟨ha, hempty _ fun n => ?_, hempty _ fun n => ?_⟩
    all_goals
      have hn := htimes n
      have hz := hnone n
      rw [Proxy.carried, hcarried n] at hz
    · rw [flatMap_append, times_append]
      omega
    · omega

theorem missed_report {gone : List T} {o' : Filed T} (h : .missed o' = report self gone o) :
    o'.obit.target ∈ gone := by
  unfold report at h
  split at h
  · cases h
    assumption
  · cases h

theorem linked_ne_report {gone : List T} {o' : Filed T} {status : ℤ} :
    .linked o' status ≠ report self gone o := by
  unfold report
  split <;> nofun

theorem Inv.resume (h : Inv s) {thread : ℕ} {frame : Frame T}
    (hframe : s.frames[thread]? = some frame) (status : ℤ) :
    Inv ({ s with frames := s.frames.eraseIdx thread }.resume self status frame) := by
  -- a thread that carries nothing goes on and still carries nothing
  have hpass : ∀ more : List (Frame T), frame.obits = [] → more.flatMap Frame.obits = [] →
      Inv ⟨s.alive, s.obituaries, s.frames.eraseIdx thread ++ more, s.gone, s.log, s.count⟩ := by
    intro more hnone hmore
    apply h.thread hframe more (append_nil _).symm
    · intro n
      rw [hmore, hnone]
      rfl
    · exact fun _ ho => absurd ho not_mem_nil
    · exact fun _ _ ho => absurd ho not_mem_nil
  have hgone : ∀ hnone : frame.obits = [],
      Inv ⟨s.alive, s.obituaries, s.frames.eraseIdx thread, s.gone, s.log, s.count⟩ := by
    intro hnone
    have hall := hpass [] hnone rfl
    rwa [append_nil] at hall
  cases frame with
  | transacting =>
    simp only [Proxy.resume]
    split
    · exact hpass [.bereaved] rfl rfl
    · exact hgone rfl
  | bereaved =>
    simp only [Proxy.resume]
    split
    · exact hpass [.sending] rfl rfl
    · exact hgone rfl
  | sending =>
    -- those that are registered are the thread's now
    have hsent : ∀ more : List (Frame T), (∀ n, times n (more.flatMap Frame.obits) = times n s.held) →
        Inv ⟨false, none, s.frames.eraseIdx thread ++ more, s.gone, s.log, s.count⟩ := by
      intro more hmore
      refine h.move (append_nil _).symm le_rfl ?_ (fun _ => rfl) (fun ha => by cases ha)
        (fun _ ho => absurd ho not_mem_nil) (fun _ _ ho => absurd ho not_mem_nil)
      intro n
      have hn := times_frames hframe n
      have hnone : (Frame.sending : Frame T).obits = [] := rfl
      rw [hnone, times_nil] at hn
      rw [flatMap_append, times_append, hmore n, Proxy.carried, hn]
      simp only [flatMap_nil, times_nil, Option.getD_none]
      omega
    simp only [Proxy.resume]
    split
    · rename_i hnone
      have hall := hsent [] (by intro n; rw [Proxy.held, hnone]; rfl)
      rwa [append_nil] at hall
    · rename_i obits hsome
      apply hsent [.reporting obits]
      intro n
      rw [Proxy.held, hsome, flatMap_singleton, Frame.obits, Option.getD_some]
  | reporting obits =>
    rcases obits with - | ⟨o, obits⟩
    · simp only [Proxy.resume]
      exact hgone rfl
    · simp only [Proxy.resume]
      apply h.thread hframe [.reporting obits] rfl
      · intro n
        simp only [flatMap_cons, flatMap_nil, append_nil, removed_report,
          told_report, refused_report, times_nil, Frame.obits]
        rw [times_cons n o obits]
        omega
      · intro o' ho
        exact missed_report (mem_singleton.1 ho)
      · intro o' status ho
        exact absurd (mem_singleton.1 ho) linked_ne_report
  | late o =>
    have hspoken : Inv ⟨s.alive, s.obituaries, s.frames.eraseIdx thread ++ [], s.gone,
        s.log ++ [report self s.gone o, .linked o binderDead], s.count⟩ := by
      apply h.thread hframe [] rfl
      · intro n
        simp only [flatMap_cons, flatMap_nil, append_nil, removed_report,
          told_report, refused_report, removed_linked, told_linked, refused_dead, times_nil,
          Frame.obits]
        omega
      · intro o' ho
        rcases mem_cons.1 ho with ho | ho
        · exact missed_report ho
        · cases mem_singleton.1 ho
      · intro o' status ho
        rcases mem_cons.1 ho with ho | ho
        · exact absurd ho linked_ne_report
        · cases mem_singleton.1 ho
          exact h.lt_of_carried hframe (mem_singleton_self o)
    rwa [append_nil] at hspoken

omit [DecidableEq T] in
theorem Inv.enter (h : Inv s) (hframe : frame.obits = []) :
    Inv { s with frames := s.frames ++ [frame] } := by
  have hnone : (s.frames ++ [frame]).flatMap Frame.obits = s.frames.flatMap Frame.obits := by
    rw [flatMap_append, flatMap_singleton, hframe, append_nil]
  refine h.move (append_nil _).symm le_rfl ?_ h.dead ?_
    (fun _ ho => absurd ho not_mem_nil) (fun _ _ ho => absurd ho not_mem_nil)
  · intro n
    rw [hnone]
    simp only [flatMap_nil, times_nil, Nat.add_zero, Proxy.held, Proxy.carried]
  · intro ha
    rw [hnone]
    exact ⟨ha, h.quiet ha, rfl⟩

/-- **Every step keeps the invariant.** -/
theorem Inv.step (h : Inv s) {a : Action T} (hs : BpBinder.step self s a = some s') : Inv s' := by
  cases a with
  | linkToDeath obit newOk addOk =>
    obtain ⟨⟩ := hs
    exact h.link obit newOk addOk
  | unlinkToDeath target method flags =>
    obtain ⟨⟩ := hs
    exact h.unlink target method flags
  | transact =>
    obtain ⟨⟩ := hs
    split
    · exact h.enter rfl
    · exact h
  | sendObituary =>
    obtain ⟨⟩ := hs
    split
    · exact h.enter rfl
    · exact h
  | resume thread status =>
    obtain ⟨frame, hframe, hs⟩ := Option.bind_eq_some_iff.1 hs
    obtain ⟨⟩ := hs
    exact h.resume hframe status
  | die target =>
    obtain ⟨⟩ := hs
    exact ⟨⟨h.once, h.dead, h.alive, fun o ho => mem_cons_of_mem _ (h.missed o ho)⟩, h.fresh⟩

/-- **No obituary is lost or reported twice**, in any state of any run: not even in those in which
`LinkToDeath` registers one and says that it did not. -/
theorem accounted_run (self : SValue) (as : List (Action T)) :
    AllStates (step self) Accounted (Proxy.init : Proxy T) as := by
  refine AllStates.imp (fun _ h => h.toAccounted) as _ (AllStates.of_keep ?_ as _ Inv.init)
  exact fun _ _ _ h hs => h.step hs

/-! ### What a step does -/

omit [DecidableEq T] in
theorem Inv.not_held (h : Inv s) (obit : Obituary T) : (⟨s.count, obit⟩ : Filed T) ∉ s.held := by
  intro hmem
  have hplaces : (⟨s.count, obit⟩ : Filed T) ∈ s.places := by
    unfold Proxy.places
    simp only [mem_append]
    exact .inl (.inl (.inl (.inl hmem)))
  exact absurd (h.number_lt hplaces) (Nat.lt_irrefl s.count)

omit [DecidableEq T] in
/-- What `LinkToDeath` says of a new obituary is the last thing that it said. -/
theorem Inv.answered_iff (h : Inv s) {obit : Obituary T} {status : ℤ}
    (hlog : s'.log = s.log ++ [.linked ⟨s.count, obit⟩ status]) :
    Answered s s' obit ↔ (status = 0 ↔ (⟨s.count, obit⟩ : Filed T) ∈ s'.held) := by
  constructor
  · intro hall
    apply hall status
    rw [hlog]
    exact mem_append_right _ (mem_singleton_self _)
  · intro hiff status' hmem
    rw [hlog] at hmem
    rcases mem_append.1 hmem with hmem | hmem
    · exact absurd (h.fresh _ _ hmem) (Nat.lt_irrefl s.count)
    · cases mem_singleton.1 hmem
      exact hiff

omit [DecidableEq T] in
/-- **`LinkToDeath` says what it did** exactly if it registers an obituary where no other is. -/
theorem Inv.answered_link (h : Inv s) (obit : Obituary T) (newOk addOk : Bool) :
    Answered s ({ s with count := s.count + 1 }.link ⟨s.count, obit⟩ newOk addOk) obit ↔
      (s.alive = true → (s.obituaries.isSome || newOk) = true → addOk = true → s.held = []) := by
  have hne : noMemory ≠ 0 := by decide
  have hrefused : noMemory = 0 ↔ (⟨s.count, obit⟩ : Filed T) ∈ s.held :=
    ⟨fun hz => absurd hz hne, fun hmem => absurd hmem (h.not_held obit)⟩
  unfold Proxy.link
  split
  · rename_i halive
    split
    · rename_i hnone
      rw [Bool.and_eq_true, Option.isNone_iff_eq_none, Bool.not_eq_true'] at hnone
      refine iff_of_true ((h.answered_iff rfl).2 hrefused) ?_
      intro _ hsome
      rw [hnone.1, hnone.2] at hsome
      cases hsome
    · rename_i hsome
      replace hsome : (s.obituaries.isSome || newOk) = true := by
        revert hsome
        cases s.obituaries <;> cases newOk <;> simp
      split
      · rename_i hadd
        -- the result is the place of the new one
        rw [h.answered_iff rfl]
        have hmem : (⟨s.count, obit⟩ : Filed T) ∈ s.held ++ [⟨s.count, obit⟩] :=
          mem_append_right _ (mem_singleton_self _)
        constructor
        · intro hiff _ _ _
          have hzero : ((s.held.length : ℕ) : ℤ) = 0 := hiff.2 hmem
          exact eq_nil_of_length_eq_zero (by omega)
        · intro hempty
          have hzero : ((s.held.length : ℕ) : ℤ) = 0 := by
            rw [hempty halive hsome hadd]
            rfl
          exact ⟨fun _ => hmem, fun _ => hzero⟩
      · rename_i hadd
        exact iff_of_true ((h.answered_iff rfl).2 hrefused) (fun _ _ ha => absurd ha hadd)
  · rename_i hdead
    refine iff_of_true ?_ (fun ha => absurd ha hdead)
    intro status hmem
    exact absurd (h.fresh _ _ hmem) (Nat.lt_irrefl s.count)

/-- **What a step of a run does** is what is claimed, but for what `LinkToDeath` says. -/
theorem Inv.exact_iff_observes (h : Inv s) (a : Action T) : Exact self s a ↔ Observes s a := by
  constructor
  · intro hexact
    cases a with
    | linkToDeath obit newOk addOk =>
      exact (h.answered_link obit newOk addOk).1 (hexact.linked obit newOk addOk _ rfl rfl)
    | _ => trivial
  · intro hob
    refine ⟨fun s' hs => (h.step hs).toAccounted, ?_, ?_, ?_⟩
    · rintro obit newOk addOk s' rfl hs
      obtain ⟨⟩ := hs
      exact (h.answered_link obit newOk addOk).2 hob
    · rintro thread status o s' rfl hframe hs
      obtain ⟨frame, hframe', hs⟩ := Option.bind_eq_some_iff.1 hs
      obtain ⟨⟩ := hframe.symm.trans hframe'
      obtain ⟨⟩ := hs
      have hempty : s.held = [] := h.dead (h.dead_of_carried hframe (mem_singleton_self o))
      refine ⟨rfl, ?_⟩
      show o ∉ s.held
      rw [hempty]
      exact not_mem_nil
    · rintro target method flags s' rfl hs
      obtain ⟨⟩ := hs
      obtain ⟨obituaries, status, heq, hleft, hstatus⟩ := unlink_eq s target method flags
      rw [heq]
      exact ⟨hleft, status, rfl, hstatus⟩

/-- **The runs that do what is claimed**: in every other one `LinkToDeath` registers an obituary
where there is one already, and gives its place for a result. -/
theorem exact_run_iff (self : SValue) (as : List (Action T)) :
    AllSteps (step self) (Exact self) (Proxy.init : Proxy T) as ↔
      AllSteps (step self) Observes (Proxy.init : Proxy T) as :=
  allSteps_congr (fun _ a h => h.exact_iff_observes a) (fun _ _ _ h => h.step) as _ Inv.init

/-- The second obituary of a live proxy is registered, and `LinkToDeath` comes back with 1. -/
theorem link_twice : ¬ ∀ (self : SValue) (as : List (Action ℕ)),
    AllSteps (step self) (Exact self) (Proxy.init : Proxy ℕ) as := by
  intro hall
  have hrun := hall .undefined [.linkToDeath ⟨0, .undefined, 0⟩ true true,
    .linkToDeath ⟨1, .undefined, 0⟩ true true]
  have hsecond := ((hrun _ rfl).2 _ rfl).1
  have hanswered := hsecond.linked _ _ _ _ rfl rfl 1
    (mem_append_right _ (mem_singleton_self _))
  have hheld : (⟨1, ⟨1, .undefined, 0⟩⟩ : Filed ℕ) ∈
      [(⟨0, ⟨0, .undefined, 0⟩⟩ : Filed ℕ), ⟨1, ⟨1, .undefined, 0⟩⟩] :=
    mem_cons_of_mem _ (mem_singleton_self _)
  exact absurd (hanswered.2 hheld) (by decide)

end OpenBinder.BpBinder
