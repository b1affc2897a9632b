import OpenBinder.Inform.InformListLaw

/-!
# The informant calls what is registered

As long as what is searched for is found, registrations are called, missed, removed and refused as
is claimed. What makes the search miss one is a target that has died: it is compared as `NULL`, in
a place that it was given by its address.

* `Inv`: what is claimed of a state, and where the threads in `Inform` and the messages are.
* `Inv.step`: what observing steps keep.
* `notifies_of_observes`: what observing runs do.
-/

namespace OpenBinder.BInformant

open Lib CallbackInfo List Option

/-! ### Counting -/

section Counting

variable {refs : Refs} {t t' : BitVec 32} {w w' : Bool}

theorem count_pair (h : t' ≠ 0) :
    (if t ≠ 0 ∧ t' = t ∧ w' = w then 1 else 0) = ([(t, w)].count (t', w') : ℤ) := by
  by_cases heq : (t, w) = (t', w')
  · cases heq
    rw [if_pos ⟨h, rfl, rfl⟩, count_singleton_self]
    rfl
  · have hcond : ¬ (t ≠ 0 ∧ t' = t ∧ w' = w) := by
      rintro ⟨-, rfl, rfl⟩
      exact heq rfl
    rw [if_neg hcond, count_singleton]
    simp [heq]

theorem inc_eq (h : t' ≠ 0) : refs.inc t w t' w' = refs t' w' + ([(t, w)].count (t', w') : ℕ) := by
  rw [← count_pair h]
  unfold Refs.inc
  split <;> simp

theorem dec_eq (h : t' ≠ 0) : refs.dec t w t' w' = refs t' w' - ([(t, w)].count (t', w') : ℕ) := by
  rw [← count_pair h]
  unfold Refs.dec
  split <;> simp

theorem hold_eq (info : CallbackInfo) (h : t' ≠ 0) :
    refs.hold info t' w' = refs t' w' + ([info.ref].count (t', w') : ℕ) := inc_eq h

theorem drop_eq (info : CallbackInfo) (h : t' ≠ 0) :
    refs.drop info t' w' = refs t' w' - ([info.ref].count (t', w') : ℕ) := dec_eq h

theorem count_cons_ref (infos : List CallbackInfo) (info : CallbackInfo) (x : BitVec 32 × Bool) :
    ((info :: infos).map CallbackInfo.ref).count x =
      [info.ref].count x + (infos.map CallbackInfo.ref).count x := by
  rw [map_cons, ← singleton_append, count_append]

theorem foldl_refs (ε : ℤ) {f : Refs → CallbackInfo → Refs}
    (hf : ∀ refs info, f refs info t' w' = refs t' w' + ε * ([info.ref].count (t', w') : ℕ)) :
    ∀ (infos : List CallbackInfo) (refs : Refs), infos.foldl f refs t' w' =
      refs t' w' + ε * ((infos.map CallbackInfo.ref).count (t', w') : ℕ) := by
  intro infos
  induction infos with
  | nil => intro refs; simp
  | cons info infos ih =>
    intro refs
    rw [foldl_cons, ih, hf, count_cons_ref]
    push_cast
    ring

theorem foldl_hold (h : t' ≠ 0) (infos : List CallbackInfo) (refs : Refs) :
    infos.foldl Refs.hold refs t' w' =
      refs t' w' + ((infos.map CallbackInfo.ref).count (t', w') : ℕ) := by
  rw [foldl_refs 1 fun refs info => by rw [hold_eq info h, one_mul], one_mul]

theorem foldl_drop (h : t' ≠ 0) (infos : List CallbackInfo) (refs : Refs) :
    infos.foldl Refs.drop refs t' w' =
      refs t' w' - ((infos.map CallbackInfo.ref).count (t', w') : ℕ) := by
  rw [foldl_refs (-1) fun refs info => by rw [drop_eq info h]; ring]
  ring

end Counting

section Threads

variable {α : Type} [BEq α]

theorem count_flatMap_erase {β : Type} {l : List β} {n : ℕ} {b : β} (h : l[n]? = some b)
    (f : β → List α) (x : α) :
    (l.flatMap f).count x = (f b).count x + ((l.eraseIdx n).flatMap f).count x := by
  obtain ⟨hlt, rfl⟩ := List.getElem?_eq_some_iff.1 h
  have hperm := (getElem_cons_eraseIdx_perm hlt).symm.flatMap_right f
  rw [hperm.count_eq x, flatMap_cons, count_append]

theorem count_map_erase {β : Type} {l : List β} {n : ℕ} {b : β} (h : l[n]? = some b)
    (f : β → α) (x : α) :
    (l.map f).count x = [f b].count x + ((l.eraseIdx n).map f).count x := by
  simpa only [flatMap_pure_eq_map, map_eq_flatMap] using
    count_flatMap_erase h (fun b => [f b]) x

end Threads

theorem count_cons_tag (x y : ℕ × ℕ) (l : List (ℕ × ℕ)) :
    (y :: l).count x = [y].count x + l.count x := by
  rw [← singleton_append, count_append]

/-- What a thread still has to call after a registration. -/
def Informing.rest (t : Informing) : List (ℕ × ℕ) :=
  (List.range' (t.i + 1) (t.callbacks.length - (t.i + 1))).map (t.number, ·)

variable {t : Informing} {p : Posted} {key : SValue} {info : CallbackInfo}

theorem due_of_ne_removing (h : t.phase ≠ .removing) (hi : t.i < t.callbacks.length) :
    t.due = (t.number, t.i) :: t.rest := by
  have hlen : t.callbacks.length - t.i = t.callbacks.length - (t.i + 1) + 1 := by omega
  unfold Informing.due Informing.rest
  cases hp : t.phase with
  | removing => exact absurd hp h
  | calling | promoted => simp only [hlen, List.range'_succ, map_cons]

theorem due_of_le (h : t.phase ≠ .removing) (hi : t.callbacks.length ≤ t.i) :
    t.due = [] := by
  have hlen : t.callbacks.length - t.i = 0 := by omega
  unfold Informing.due
  cases hp : t.phase with
  | removing => exact absurd hp h
  | calling | promoted => simp only [hlen, List.range'_zero, map_nil]

/-! ### The invariant -/

/-- A registration of a call of `Inform`. -/
def StartedWith (s : BInformant) (number i : ℕ) (info : CallbackInfo) : Prop :=
  ∃ start, s.started[number]? = some start ∧ start.callbacks[i]? = some info

/-- What is known of a thread in `Inform`. -/
structure Underway (s : BInformant) (t : Informing) : Prop where
  started : ∃ start, s.started[t.number]? = some start ∧ start.callbacks = t.callbacks
  gone : t.phase = .removing → ∃ info, t.callbacks[t.i]? = some info ∧
    (info.mTarget = 0 ∨ info.isWeak = true ∧ info.mTarget ∈ s.gone)
  there : t.phase = .promoted → ∃ info, t.callbacks[t.i]? = some info ∧ info.mTarget ≠ 0

/-- What is known of a message on its way. -/
def OnItsWay (s : BInformant) (p : Posted) : Prop :=
  ∃ info, StartedWith s p.number p.i info ∧ info.mTarget ≠ 0 ∧
    (p.message.valueFor (.int32 0)).binder = info.mTarget ∧
      (p.message.valueFor (.int32 1)).Equal info.mMethod ∧
        ((p.message.valueFor (.int32 2)).valueFor (.int32 1)).Equal info.mCookie

/-- **The invariant.** -/
structure Inv (s : BInformant) : Prop extends Accounted s where
  underway : ∀ t ∈ s.informs, Underway s t
  onItsWay : ∀ p ∈ s.posted, OnItsWay s p

variable {s s' : BInformant}

theorem Inv.count_places (h : Inv s) (x : ℕ × ℕ) : s.places.count x = s.issued.count x :=
  h.once.count_eq x

theorem Inv.not_gone (h : Inv s) {t : BitVec 32} (ht : t ≠ 0) (hmem : (t, false) ∈ s.held) :
    t ∉ s.gone := by
  apply h.alive t ht
  rw [h.refs t false ht]
  exact_mod_cast count_pos_iff.2 hmem

/-- **A step that moves registrations**: it leaves none out and counts what it refers to. -/
theorem Inv.move (h : Inv s)
    (hplaces : ∀ x, s'.places.count x + s.issued.count x = s.places.count x + s'.issued.count x)
    (hrefs : ∀ t w, t ≠ 0 → s'.refs t w + (s.held.count (t, w) : ℕ) =
      s.refs t w + (s'.held.count (t, w) : ℕ))
    (hstarted : ∀ (n : ℕ) start, s.started[n]? = some start → s'.started[n]? = some start)
    (hcalled : ∀ number i target method args, .called number i target method args ∈ s'.log →
      .called number i target method args ∈ s.log ∨ ∃ info, StartedWith s number i info ∧
        target = info.mTarget ∧ method.Equal info.mMethod ∧
          (args.valueFor (.int32 1)).Equal info.mCookie)
    (hdistinct : ∀ key, (s'.callbacks.find key).Pairwise fun l r => ¬ l.Same r)
    (halive : ∀ t, t ≠ 0 → (t, false) ∈ s'.held → t ∉ s'.gone)
    (hunderway : ∀ t ∈ s'.informs, Underway s' t) (hposted : ∀ p ∈ s'.posted, OnItsWay s' p) :
    Inv s' where
  once := by
    apply perm_iff_count.2
    intro x
    have hx := hplaces x
    rw [h.count_places] at hx
    omega
  called := by
    intro number i target method args hmem
    rcases hcalled number i target method args hmem with hold | ⟨info, ⟨start, hs, hi⟩, hrest⟩
    · obtain ⟨start, info, hs, hi, hrest⟩ := h.called number i target method args hold
      exact ⟨start, info, hstarted _ _ hs, hi, hrest⟩
    · exact ⟨start, info, hstarted _ _ hs, hi, hrest⟩
  distinct := hdistinct
  refs := by
    intro t w ht
    have hmove := hrefs t w ht
    rw [h.refs t w ht] at hmove
    omega
  alive := by
    intro t ht hpos
    apply halive t ht
    have hmove := hrefs t false ht
    rw [h.refs t false ht] at hmove
    apply count_pos_iff.1
    omega
  underway := hunderway
  onItsWay := hposted

theorem Inv.keep (h : Inv s)
    (hplaces : ∀ x, s'.places.count x = s.places.count x)
    (hrefs : ∀ t w, t ≠ 0 → s'.refs t w + (s.held.count (t, w) : ℕ) =
      s.refs t w + (s'.held.count (t, w) : ℕ))
    (hcalled : ∀ number i target method args, .called number i target method args ∈ s'.log →
      .called number i target method args ∈ s.log ∨ ∃ info, StartedWith s number i info ∧
        target = info.mTarget ∧ method.Equal info.mMethod ∧
          (args.valueFor (.int32 1)).Equal info.mCookie)
    (hdistinct : ∀ key, (s'.callbacks.find key).Pairwise fun l r => ¬ l.Same r)
    (halive : ∀ t, t ≠ 0 → (t, false) ∈ s'.held → t ∉ s'.gone)
    (hunderway : ∀ t ∈ s'.informs, Underway s' t) (hposted : ∀ p ∈ s'.posted, OnItsWay s' p)
    (hstarted : s'.started = s.started) : Inv s' := by
  refine h.move ?_ hrefs (fun _ _ hs => hstarted ▸ hs) hcalled hdistinct halive hunderway hposted
  intro x
  have hissued : s'.issued = s.issued := by
    unfold issued
    rw [hstarted]
  rw [hplaces, hissued]

theorem OnItsWay.mono (h : OnItsWay s p)
    (hstarted : ∀ (n : ℕ) start, s.started[n]? = some start → s'.started[n]? = some start) :
    OnItsWay s' p := by
  obtain ⟨info, ⟨start, hs, hi⟩, hrest⟩ := h
  exact ⟨info, ⟨start, hstarted _ _ hs, hi⟩, hrest⟩

theorem Underway.mono (h : Underway s t)
    (hstarted : ∀ (n : ℕ) start, s.started[n]? = some start → s'.started[n]? = some start)
    (hgone : ∀ info, t.callbacks[t.i]? = some info → info.mTarget ∈ s.gone →
      info.isWeak = true → info.mTarget ≠ 0 → info.mTarget ∈ s'.gone) : Underway s' t where
  started := by
    obtain ⟨start, hs, hcallbacks⟩ := h.started
    exact ⟨start, hstarted _ _ hs, hcallbacks⟩
  gone := by
    intro hp
    obtain ⟨info, hi, hzero | ⟨hweak, hmem⟩⟩ := h.gone hp
    · exact ⟨info, hi, .inl hzero⟩
    · by_cases hne : info.mTarget = 0
      · exact ⟨info, hi, .inl hne⟩
      · exact ⟨info, hi, .inr ⟨hweak, hgone info hi hmem hweak hne⟩⟩
  there := h.there

theorem count_held (s : BInformant) (x : BitVec 32 × Bool) : s.held.count x =
    (s.callbacks.infos.map CallbackInfo.ref).count x + (s.informs.flatMap Informing.held).count x +
      (s.posted.map Posted.held).count x := by
  unfold held
  rw [count_append, count_append]

theorem count_of_places (s : BInformant) (x : ℕ × ℕ) : s.places.count x =
    (s.informs.flatMap Informing.due).count x + (s.posted.map fun p => (p.number, p.i)).count x +
      (s.log.flatMap Event.told).count x := by
  unfold places
  rw [count_append, count_append]

theorem Inv.init : Inv init where
  once := List.Perm.refl _
  called := fun _ _ _ _ _ h => absurd h not_mem_nil
  distinct := fun _ => List.Pairwise.nil
  refs := fun _ _ _ => rfl
  alive := fun _ _ h => absurd h (lt_irrefl 0)
  underway := fun _ h => absurd h not_mem_nil
  onItsWay := fun _ h => absurd h not_mem_nil

/-! ### Registrations -/

theorem hit_iff_registered (hreach : Reached s key info) (hgone : info.mTarget ∉ s.gone)
    (hne : info.mTarget ≠ 0) :
    (getOrderOf s.gone (s.callbacks.find key) info).1 = true ↔ Registered s key info := by
  constructor
  · intro hhit
    obtain ⟨r, hr, hsame⟩ := getOrderOf_same hhit hgone hne
    exact ⟨r, mem_of_getElem? hr, hsame⟩
  · rintro ⟨r, hr, hsame⟩
    obtain ⟨i, hi⟩ := mem_iff_getElem?.1 hr
    rw [getOrderOf_reached hi hsame (hreach i r hi hsame)]

theorem not_registered_of_miss (hreach : Reached s key info)
    (hmiss : (getOrderOf s.gone (s.callbacks.find key) info).1 = false) :
    ¬ Registered s key info := by
  rintro ⟨r, hr, hsame⟩
  obtain ⟨i, hi⟩ := mem_iff_getElem?.1 hr
  rw [getOrderOf_reached hi hsame (hreach i r hi hsame)] at hmiss
  cases hmiss

/-- What `RegisterForCallback` and `UnregisterForCallback` leave as it is. -/
theorem Inv.edit (h : Inv s) {callbacks : InformList} {refs : Refs} {event : Event}
    (hevent : event.told = [])
    (hrefs : ∀ t w, t ≠ 0 → refs t w + ((s.callbacks.infos.map CallbackInfo.ref).count (t, w) : ℕ) =
      s.refs t w + ((callbacks.infos.map CallbackInfo.ref).count (t, w) : ℕ))
    (hdistinct : ∀ key, (callbacks.find key).Pairwise fun l r => ¬ l.Same r)
    (halive : ∀ info ∈ callbacks.infos, info ∈ s.callbacks.infos ∨ info.mTarget ∉ s.gone) :
    Inv { s with callbacks := callbacks, refs := refs, log := s.log ++ [event] } := by
  apply h.keep
  · intro x
    rw [count_of_places, count_of_places, flatMap_append, flatMap_singleton, hevent,
      append_nil]
  · intro t w ht
    have hmove := hrefs t w ht
    rw [count_held, count_held]
    push_cast
    omega
  · intro number i target method args hmem
    rcases mem_append.1 hmem with hmem | hmem
    · exact .inl hmem
    · obtain rfl := mem_singleton.1 hmem
      exact absurd hevent (cons_ne_nil _ _)
  · exact hdistinct
  · intro t ht hmem
    unfold held at hmem
    rw [append_assoc] at hmem
    rcases mem_append.1 hmem with hmem | hmem
    · obtain ⟨info, hinfo, href⟩ := mem_map.1 hmem
      rcases halive info hinfo with hold | hgone
      · apply h.not_gone ht
        unfold held
        rw [append_assoc]
        exact mem_append_left _ (mem_map.2 ⟨info, hold, href⟩)
      · obtain rfl : info.mTarget = t := congrArg Prod.fst href
        exact hgone
    · apply h.not_gone ht
      unfold held
      rw [append_assoc]
      exact mem_append_right _ hmem
  · exact fun t ht => (h.underway t ht).mono (fun _ _ hs => hs) fun _ _ hmem _ _ => hmem
  · exact fun p hp => (h.onItsWay p hp).mono fun _ _ hs => hs
  · rfl

theorem Inv.distinct_insert (h : Inv s) {i : ℕ} (hnew : ¬ Registered s key info)
    (hi : i ≤ (s.callbacks.find key).length) (key' : SValue) :
    (InformList.find ⟨s.callbacks.mList.add key.code ((s.callbacks.find key).insertIdx i info)⟩
      key').Pairwise fun l r => ¬ l.Same r := by
  rw [InformList.find_set]
  split
  · have hsymm : ∀ l r : CallbackInfo, ¬ l.Same r → ¬ r.Same l := fun l r hne hs => hne hs.symm
    refine ((perm_insertIdx info _ hi).pairwise_iff (fun {l r} => hsymm l r)).2 ?_
    exact pairwise_cons.2 ⟨fun r hr hs => hnew ⟨r, hr, hs.symm⟩, h.distinct key⟩
  · exact h.distinct key'

theorem Inv.register (h : Inv s) (hreach : Reached s key info) (hgone : info.mTarget ∉ s.gone)
    (infoOk keyOk : Bool) :
    Inv (s.register key info infoOk keyOk) := by
  -- the reference of the caller is given back
  have hback : ∀ t w, t ≠ 0 → (s.refs.hold info).drop info t w = s.refs t w := by
    intro t w ht
    rw [drop_eq info ht, hold_eq info ht]
    ring
  have hinUse : nameInUse ≠ 0 := by decide
  have hnoMemory : noMemory ≠ 0 := by decide
  unfold BInformant.register
  rcases InformList.add_cases s.gone s.callbacks key info infoOk keyOk with
    ⟨-, hadd⟩ | ⟨-, -, hadd⟩ | ⟨hmiss, hadd⟩
  · rw [hadd]
    refine h.edit rfl ?_ h.distinct fun _ hold => .inl hold
    intro t w ht
    rw [if_neg hinUse, hback t w ht]
  · rw [hadd]
    refine h.edit rfl ?_ h.distinct fun _ hold => .inl hold
    intro t w ht
    rw [if_neg hnoMemory, hback t w ht]
  · rw [hadd]
    have hnew := not_registered_of_miss hreach hmiss
    have hle := @getOrderOf_le s.gone (s.callbacks.find key) info
    have hperm : (InformList.infos ⟨s.callbacks.mList.add key.code ((s.callbacks.find key).insertIdx
        (getOrderOf s.gone (s.callbacks.find key) info).2 info)⟩).Perm
          (info :: s.callbacks.infos) := by
      refine (InformList.perm_set _ key _).trans ?_
      refine ((perm_insertIdx info _ hle).append_right _).trans ?_
      exact ((InformList.perm_infos s.callbacks key).symm.cons info)
    refine h.edit rfl ?_ (h.distinct_insert hnew hle) ?_
    · intro t w ht
      rw [if_pos rfl, drop_eq info ht, hold_eq info ht, hold_eq info ht,
        (hperm.map CallbackInfo.ref).count_eq, count_cons_ref]
      push_cast
      ring
    · intro r hr
      rcases mem_cons.1 (hperm.mem_iff.1 hr) with rfl | hold
      · exact .inr hgone
      · exact .inl hold

theorem remove_spec (s : BInformant) (key : SValue) (info : CallbackInfo) :
    (∀ key' : SValue, ¬ key'.Equal key →
      (s.callbacks.remove s.gone key info).1.find key' = s.callbacks.find key') ∧
    ((getOrderOf s.gone (s.callbacks.find key) info).1 = false ∧
        (s.callbacks.remove s.gone key info).2 = none ∧
        (s.callbacks.remove s.gone key info).1.find key = s.callbacks.find key ∧
        (s.callbacks.remove s.gone key info).1.infos.Perm s.callbacks.infos ∨
      ∃ i r, getOrderOf s.gone (s.callbacks.find key) info = (true, i) ∧
        (s.callbacks.find key)[i]? = some r ∧
        (s.callbacks.remove s.gone key info).2 = some r ∧
        (s.callbacks.remove s.gone key info).1.find key = (s.callbacks.find key).eraseIdx i ∧
        s.callbacks.infos.Perm (r :: (s.callbacks.remove s.gone key info).1.infos)) := by
  obtain ⟨left, hperm, hfind, hcases⟩ := InformList.remove_cases s.gone s.callbacks key info
  refine ⟨?_, ?_⟩
  · intro key' hne
    rw [hfind key', if_neg]
    exact fun hcode => hne (SValue.equal_of_code hcode)
  · have hkey := hfind key
    rw [if_pos rfl] at hkey
    rw [hkey]
    rcases hcases with ⟨hmiss, rfl, hnone⟩ | ⟨r, hhit, hr, rfl, hsome⟩
    · exact .inl ⟨hmiss, hnone, rfl, hperm.trans (InformList.perm_infos s.callbacks key).symm⟩
    · refine .inr ⟨_, r, Prod.ext hhit rfl, hr, hsome, rfl, ?_⟩
      refine (InformList.perm_infos s.callbacks key).trans ?_
      obtain ⟨hlt, hget⟩ := List.getElem?_eq_some_iff.1 hr
      have herase := (getElem_cons_eraseIdx_perm hlt).symm
      rw [hget] at herase
      exact (herase.append_right _).trans (hperm.symm.cons r)

theorem Inv.distinct_remove (h : Inv s) (key : SValue) (info : CallbackInfo) (key' : SValue) :
    ((s.callbacks.remove s.gone key info).1.find key').Pairwise fun l r => ¬ l.Same r := by
  obtain ⟨hothers, hcases⟩ := remove_spec s key info
  by_cases hkey : key'.Equal key
  · have hsame : (s.callbacks.remove s.gone key info).1.find key' =
        (s.callbacks.remove s.gone key info).1.find key := by
      unfold InformList.find
      rw [hkey.code]
    rw [hsame]
    rcases hcases with ⟨-, -, hfind, -⟩ | ⟨i, r, -, -, -, hfind, -⟩
    · rw [hfind]
      exact h.distinct key
    · rw [hfind]
      exact (h.distinct key).sublist (eraseIdx_sublist _ i)
  · rw [hothers key' hkey]
    exact h.distinct key'

theorem Inv.unregister (h : Inv s) (key : SValue) (info : CallbackInfo) :
    Inv (s.unregister key info) := by
  unfold BInformant.unregister
  rcases (remove_spec s key info).2 with ⟨-, hnone, -, hperm⟩ | ⟨i, r, -, -, hsome, -, hperm⟩
  · refine h.edit rfl ?_ (h.distinct_remove key info) fun r hr => .inl (hperm.mem_iff.1 hr)
    intro t w ht
    rw [hnone, elim_none, drop_eq info ht, hold_eq info ht,
      (hperm.map CallbackInfo.ref).count_eq]
    ring
  · refine h.edit rfl ?_ (h.distinct_remove key info) fun r' hr' =>
      .inl (hperm.mem_iff.2 (mem_cons_of_mem r hr'))
    intro t w ht
    rw [hsome, elim_some, drop_eq info ht, drop_eq r ht, hold_eq info ht,
      (hperm.map CallbackInfo.ref).count_eq, count_cons_ref]
    push_cast
    ring

/-! ### Calls of `Inform` -/

theorem started_append {n : ℕ} {start : Start} (more : List Start)
    (h : s.started[n]? = some start) : (s.started ++ more)[n]? = some start := by
  rw [List.getElem?_append_left (List.getElem?_eq_some_iff.1 h).1]
  exact h

theorem issued_append {start : Start} (hs : s'.started = s.started ++ [start]) :
    s'.issued = s.issued ++ (List.range start.callbacks.length).map (s.started.length, ·) := by
  unfold issued
  rw [hs, zipIdx_append, flatMap_append]
  simp

theorem Inv.inform (h : Inv s) (key information : SValue) {copyOk : Bool}
    (hcopy : copyOk = true ∨ s.callbacks.find key = []) : Inv (s.inform key information copyOk) := by
  have hcopied : (if copyOk then s.callbacks.find key else []) = s.callbacks.find key := by
    rcases hcopy with hcopy | hcopy
    · rw [if_pos hcopy]
    · rw [hcopy, ite_self]
  let t' : Informing :=
    ⟨s.started.length, key, information, s.callbacks.find key, 0, .calling⟩
  let start : Start := ⟨key, information, s.callbacks.find key⟩
  have hdue : t'.due = (List.range start.callbacks.length).map (s.started.length, ·) := by
    rw [range_eq_range']
    rfl
  have hheld : t'.held = (s.callbacks.find key).map CallbackInfo.ref := append_nil _
  generalize hs' : s.inform key information copyOk = s'
  have hcallbacks : s'.callbacks = s.callbacks := by rw [← hs']; rfl
  have hinforms : s'.informs = s.informs ++ [t'] := by
    rw [← hs', BInformant.inform, hcopied]
  have hrefs : s'.refs = (s.callbacks.find key).foldl Refs.hold s.refs := by
    rw [← hs', BInformant.inform, hcopied]
  have hstarted : s'.started = s.started ++ [start] := by rw [← hs']; rfl
  have hposted : s'.posted = s.posted := by rw [← hs']; rfl
  have hgone : s'.gone = s.gone := by rw [← hs']; rfl
  have hlog : s'.log = s.log := by rw [← hs']; rfl
  have hmono : ∀ (n : ℕ) start, s.started[n]? = some start → s'.started[n]? = some start := by
    intro n start hn
    rw [hstarted]
    exact started_append _ hn
  apply h.move
  · intro x
    rw [issued_append hstarted, count_of_places, count_of_places, hinforms, hposted, hlog,
      flatMap_append, flatMap_singleton, hdue, count_append, count_append]
    omega
  · intro t w ht
    rw [count_held, count_held, hrefs, foldl_hold ht, hcallbacks, hinforms, hposted,
      flatMap_append, flatMap_singleton, hheld, count_append]
    push_cast
    ring
  · exact hmono
  · intro number i target method args hmem
    rw [hlog] at hmem
    exact .inl hmem
  · rw [hcallbacks]
    exact h.distinct
  · intro t ht hmem
    rw [hgone]
    apply h.not_gone ht
    unfold held at hmem ⊢
    rw [hcallbacks, hinforms, hposted, flatMap_append, flatMap_singleton, hheld] at hmem
    simp only [mem_append] at hmem ⊢
    rcases hmem with (hmem | hmem | hmem) | hmem
    · exact .inl (.inl hmem)
    · exact .inl (.inr hmem)
    · -- what is copied is registered
      obtain ⟨info, hinfo, href⟩ := mem_map.1 hmem
      refine .inl (.inl (mem_map.2 ⟨info, ?_, href⟩))
      exact (InformList.perm_infos s.callbacks key).mem_iff.2 (mem_append_left _ hinfo)
    · exact .inr hmem
  · intro t ht
    rw [hinforms] at ht
    rcases mem_append.1 ht with ht | ht
    · exact (h.underway t ht).mono hmono fun _ _ hmem _ _ => hgone ▸ hmem
    · obtain rfl := mem_singleton.1 ht
      refine ⟨⟨start, ?_, rfl⟩, fun hp => ?_, fun hp => ?_⟩
      · rw [hstarted, List.getElem?_append_right (Nat.le_refl _), Nat.sub_self]
        rfl
      · cases hp
      · cases hp
  · intro p hp
    rw [hposted] at hp
    exact (h.onItsWay p hp).mono hmono

/-- **A thread in `Inform` goes on**: the registrations that it had still to call, it still has to
call, has called or missed, or has posted a message for. -/
theorem Inv.thread (h : Inv s) {thread : ℕ} {t' : Informing} (ht : s.informs[thread]? = some t)
    {callbacks : InformList} {refs : Refs} {more posted : List Posted} {events log : List Event}
    (hposted : posted = s.posted ++ more) (hlog : log = s.log ++ events)
    (hplaces : ∀ x, t'.due.count x + (more.map fun p => (p.number, p.i)).count x +
      (events.flatMap Event.told).count x = t.due.count x)
    (hrefs : ∀ τ w, τ ≠ 0 → refs τ w + (t.held.count (τ, w) : ℕ) +
      ((s.callbacks.infos.map CallbackInfo.ref).count (τ, w) : ℕ) =
        s.refs τ w + (t'.held.count (τ, w) : ℕ) +
          ((callbacks.infos.map CallbackInfo.ref).count (τ, w) : ℕ) +
            ((more.map Posted.held).count (τ, w) : ℕ))
    (hcalled : ∀ number i target method args, .called number i target method args ∈ events →
      ∃ info, StartedWith s number i info ∧ target = info.mTarget ∧ method.Equal info.mMethod ∧
        (args.valueFor (.int32 1)).Equal info.mCookie)
    (hdistinct : ∀ key, (callbacks.find key).Pairwise fun l r => ¬ l.Same r)
    (hcallbacks : ∀ info ∈ callbacks.infos, info ∈ s.callbacks.infos)
    (halive : ∀ τ, τ ≠ 0 → (τ, false) ∈ t'.held ++ more.map Posted.held →
      (τ, false) ∈ t.held ∨ τ ∉ s.gone)
    (hunderway : Underway s t') (honItsWay : ∀ p ∈ more, OnItsWay s p) :
    Inv ⟨callbacks, refs, s.gone, s.informs.eraseIdx thread ++ [t'], posted, s.started, log⟩ := by
  apply h.keep
  · intro x
    have hmove := hplaces x
    have hothers := count_flatMap_erase ht Informing.due x
    rw [count_of_places, count_of_places, hposted, hlog, flatMap_append,
      flatMap_singleton, flatMap_append, map_append, count_append,
      count_append, count_append]
    omega
  · intro τ w hτ
    have hmove := hrefs τ w hτ
    have hothers := count_flatMap_erase ht Informing.held (τ, w)
    rw [count_held, count_held, hposted, flatMap_append, flatMap_singleton,
      map_append, count_append, count_append]
    push_cast
    omega
  · intro number i target method args hmem
    replace hmem : .called number i target method args ∈ s.log ++ events := hlog ▸ hmem
    exact (mem_append.1 hmem).imp_right (hcalled number i target method args)
  · exact hdistinct
  · intro τ hτ hmem
    unfold held at hmem
    rw [hposted, flatMap_append, flatMap_singleton, map_append] at hmem
    have hgone : (τ, false) ∈ s.held ∨ τ ∉ s.gone := by
      unfold held
      simp only [mem_append] at hmem halive ⊢
      rcases hmem with (hmem | hmem | hmem) | hmem | hmem
      · obtain ⟨info, hinfo, href⟩ := mem_map.1 hmem
        exact .inl (.inl (.inl (mem_map.2 ⟨info, hcallbacks info hinfo, href⟩)))
      · obtain ⟨t'', ht'', hmem⟩ := mem_flatMap.1 hmem
        exact .inl (.inl (.inr (mem_flatMap.2 ⟨t'', mem_of_mem_eraseIdx ht'', hmem⟩)))
      · refine (halive τ hτ (.inl hmem)).imp_left fun hmem => ?_
        exact .inl (.inr (mem_flatMap.2 ⟨t, mem_of_getElem? ht, hmem⟩))
      · exact .inl (.inr hmem)
      · refine (halive τ hτ (.inr hmem)).imp_left fun hmem => ?_
        exact .inl (.inr (mem_flatMap.2 ⟨t, mem_of_getElem? ht, hmem⟩))
    exact hgone.elim (h.not_gone hτ) id
  · intro t'' ht''
    rcases mem_append.1 ht'' with ht'' | ht''
    · exact (h.underway t'' (mem_of_mem_eraseIdx ht'')).mono (fun _ _ hs => hs)
        fun _ _ hmem _ _ => hmem
    · obtain rfl := mem_singleton.1 ht''
      exact hunderway.mono (fun _ _ hs => hs) fun _ _ hmem _ _ => hmem
  · intro p hp
    replace hp : p ∈ s.posted ++ more := hposted ▸ hp
    rcases mem_append.1 hp with hp | hp
    · exact (h.onItsWay p hp).mono fun _ _ hs => hs
    · exact (honItsWay p hp).mono fun _ _ hs => hs
  · rfl

section

variable {thread : ℕ} {t : Informing} {info : CallbackInfo}

theorem Inv.startedWith (h : Inv s) (ht : s.informs[thread]? = some t)
    (hi : t.callbacks[t.i]? = some info) : StartedWith s t.number t.i info := by
  obtain ⟨start, hs, hcallbacks⟩ := (h.underway t (mem_of_getElem? ht)).started
  exact ⟨start, hs, hcallbacks ▸ hi⟩

theorem held_of_ne_promoted (h : t.phase ≠ .promoted) :
    t.held = t.callbacks.map CallbackInfo.ref := by
  unfold Informing.held
  cases hp : t.phase with
  | promoted => exact absurd hp h
  | calling => exact append_nil _
  | removing => exact append_nil _

theorem held_promoted (h : t.phase = .promoted)
    (hi : t.callbacks[t.i]? = some info) :
    t.held = t.callbacks.map CallbackInfo.ref ++ [(info.mTarget, false)] := by
  unfold Informing.held
  rw [h, hi]
  rfl

section

variable (h : Inv s) (ht : s.informs[thread]? = some t)
include h ht

theorem Inv.next :
    Informing.held { t with i := t.i + 1, phase := .calling } = t.callbacks.map CallbackInfo.ref ∧
      Underway s { t with i := t.i + 1, phase := .calling } :=
  ⟨append_nil _, (h.underway t (mem_of_getElem? ht)).started, nofun, nofun⟩

theorem Inv.resume_calling (hi : t.callbacks[t.i]? = some info) (hphase : t.phase = .calling)
    (postOk : Bool) :
    Inv ({ s with informs := s.informs.eraseIdx thread }.resume postOk t info) := by
  have hlt : t.i < t.callbacks.length := (List.getElem?_eq_some_iff.1 hi).1
  have hdue : t.due = (t.number, t.i) :: t.rest :=
    due_of_ne_removing (by rw [hphase]; decide) hlt
  have hheld : t.held = t.callbacks.map CallbackInfo.ref :=
    held_of_ne_promoted (by rw [hphase]; decide)
  have hstarted := (h.underway t (mem_of_getElem? ht)).started
  simp only [resume, hphase]
  split
  · rename_i hzero
    have hdue' : Informing.due { t with phase := .removing } = t.rest := rfl
    have hheld' : Informing.held { t with phase := .removing } = t.callbacks.map CallbackInfo.ref :=
      append_nil _
    refine h.thread ht (append_nil _).symm rfl ?_ ?_ ?_ h.distinct (fun _ hr => hr) ?_ ?_
      (fun _ hp => absurd hp not_mem_nil)
    · intro x
      rw [hdue, hdue', count_cons_tag, flatMap_singleton,
        Event.told, map_nil, count_nil]
      omega
    · intro τ w hτ
      rw [hheld, hheld', map_nil, count_nil]
      ring
    · intro number i target method args hmem
      cases mem_singleton.1 hmem
    · intro τ hτ hmem
      rw [hheld', map_nil, append_nil] at hmem
      rw [hheld]
      exact .inl hmem
    · exact ⟨hstarted, fun _ => ⟨info, hi, target_eq_zero hzero⟩, fun hp => by cases hp⟩
  · rename_i hne
    have htarget : info.target s.gone = info.mTarget := target_ne_zero hne
    have hne' : info.mTarget ≠ 0 := htarget ▸ hne
    have hdue' : Informing.due { t with phase := .promoted } = t.due := by
      rw [hdue]
      exact due_of_ne_removing (fun hp => by cases hp) hlt
    have hheld' : Informing.held { t with phase := .promoted } =
        t.callbacks.map CallbackInfo.ref ++ [(info.mTarget, false)] := held_promoted rfl hi
    refine h.thread ht (append_nil _).symm (append_nil _).symm ?_ ?_ ?_ h.distinct
      (fun _ hr => hr) ?_ ?_ (fun _ hp => absurd hp not_mem_nil)
    · intro x
      rw [hdue']
      rfl
    · intro τ w hτ
      rw [hheld, hheld', inc_eq hτ, count_append, map_nil, count_nil]
      push_cast
      ring
    · exact fun _ _ _ _ _ hmem => absurd hmem not_mem_nil
    · intro τ hτ hmem
      rw [hheld', map_nil, append_nil] at hmem
      rw [hheld]
      rcases mem_append.1 hmem with hmem | hmem
      · exact .inl hmem
      · -- a weak target has not died, and a strong one is held on to
        obtain rfl : τ = info.mTarget := congrArg Prod.fst (mem_singleton.1 hmem)
        by_cases hweak : info.isWeak = true
        · right
          intro hgone
          exact hne (target_zero (.inr ⟨hweak, hgone⟩))
        · left
          refine mem_map.2 ⟨info, mem_of_getElem? hi, ?_⟩
          rw [ref, Bool.eq_false_iff.2 hweak]
    · exact ⟨hstarted, fun hp => (by cases hp), fun _ => ⟨info, hi, hne'⟩⟩

theorem Inv.resume_promoted (hi : t.callbacks[t.i]? = some info) (hphase : t.phase = .promoted)
    {postOk : Bool} (hinfo : t.information.isError = false) (hkey : t.key.isError = false)
    (hpost : info.isSync = false →
      postOk = true ∧ info.mMethod.isError = false ∧ info.mCookie.isError = false) :
    Inv ({ s with informs := s.informs.eraseIdx thread }.resume postOk t info) := by
  have hlt : t.i < t.callbacks.length := (List.getElem?_eq_some_iff.1 hi).1
  have hdue : t.due = (t.number, t.i) :: t.rest :=
    due_of_ne_removing (by rw [hphase]; decide) hlt
  have hheld := held_promoted hphase hi
  have hstartedWith := h.startedWith ht hi
  have hne : info.mTarget ≠ 0 := by
    obtain ⟨info', hi', hne⟩ := (h.underway t (mem_of_getElem? ht)).there hphase
    rwa [← Option.some.inj (hi.symm.trans hi')] at hne
  have hnext : Informing.due { t with i := t.i + 1, phase := .calling } = t.rest := rfl
  obtain ⟨hheld', hunderway⟩ := h.next ht
  obtain ⟨hcookie, herror⟩ := @cookie_callArgs t.information info.mCookie t.key hinfo hkey
  simp only [resume, hphase]
  split
  · refine h.thread ht (append_nil _).symm rfl ?_ ?_ ?_ h.distinct (fun _ hr => hr) ?_ hunderway
      (fun _ hp => absurd hp not_mem_nil)
    · intro x
      rw [hdue, hnext, count_cons_tag, flatMap_singleton,
        Event.told, map_nil, count_nil]
      omega
    · intro τ w hτ
      rw [hheld, hheld', dec_eq hτ, count_append, map_nil, count_nil]
      push_cast
      ring
    · intro number i target method args hmem
      cases mem_singleton.1 hmem
      exact ⟨info, hstartedWith, rfl, SValue.Equal.refl _, hcookie⟩
    · intro τ hτ hmem
      rw [hheld', map_nil, append_nil] at hmem
      rw [hheld]
      exact .inl (mem_append_left _ hmem)
  · rename_i hasync
    obtain ⟨rfl, hmethod, hcookieError⟩ := hpost (Bool.eq_false_iff.2 hasync)
    obtain ⟨hbinder, hmessage, hargs⟩ := 
      @message_callMessage info.mTarget info.mMethod _ hmethod (herror hcookieError)
    rw [if_pos rfl]
    refine h.thread ht rfl (append_nil _).symm ?_ ?_ ?_ h.distinct (fun _ hr => hr) ?_ hunderway
      ?_
    · intro x
      rw [hdue, hnext, count_cons_tag, flatMap_nil, count_nil]
      exact Nat.add_comm (t.rest.count x) _
    · intro τ w hτ
      rw [hheld, hheld', dec_eq hτ, inc_eq hτ, count_append, map_singleton, Posted.held,
        hbinder]
      push_cast
      ring
    · exact fun _ _ _ _ _ hmem => absurd hmem not_mem_nil
    · intro τ hτ hmem
      rw [hheld', map_singleton, Posted.held, hbinder] at hmem
      rw [hheld]
      exact .inl hmem
    · intro p hp
      obtain rfl := mem_singleton.1 hp
      exact ⟨info, hstartedWith, hne, hbinder, hmessage, (hargs.valueFor _).trans hcookie⟩

theorem Inv.resume_removing (hphase : t.phase = .removing) (postOk : Bool) :
    Inv ({ s with informs := s.informs.eraseIdx thread }.resume postOk t info) := by
  have hdue : t.due = t.rest := by
    unfold Informing.due
    rw [hphase]
    rfl
  have hheld : t.held = t.callbacks.map CallbackInfo.ref :=
    held_of_ne_promoted (by rw [hphase]; decide)
  have hnext : Informing.due { t with i := t.i + 1, phase := .calling } = t.rest := rfl
  obtain ⟨hheld', hunderway⟩ := h.next ht
  simp only [resume, hphase]
  refine h.thread ht (append_nil _).symm (append_nil _).symm ?_ ?_ ?_
    (h.distinct_remove t.key info) ?_ ?_ hunderway (fun _ hp => absurd hp not_mem_nil)
  · intro x
    rw [hdue, hnext]
    rfl
  · intro τ w hτ
    rw [hheld, hheld', map_nil, count_nil]
    rcases (remove_spec s t.key info).2 with ⟨-, hnone, -, hperm⟩ | ⟨i, r, -, -, hsome, -, hperm⟩
    · rw [hnone, elim_none, (hperm.map CallbackInfo.ref).count_eq]
      ring
    · rw [hsome, elim_some, drop_eq r hτ, (hperm.map CallbackInfo.ref).count_eq,
        count_cons_ref]
      push_cast
      ring
  · exact fun _ _ _ _ _ hmem => absurd hmem not_mem_nil
  · intro r hr
    rcases (remove_spec s t.key info).2 with ⟨-, -, -, hperm⟩ | ⟨i, r', -, -, -, -, hperm⟩
    · exact hperm.mem_iff.1 hr
    · exact hperm.mem_iff.2 (mem_cons_of_mem r' hr)
  · intro τ hτ hmem
    rw [hheld', map_nil, append_nil] at hmem
    rw [hheld]
    exact .inl hmem

theorem Inv.finish (hi : t.callbacks[t.i]? = none) : Inv { s with
      informs := s.informs.eraseIdx thread
      refs := t.callbacks.foldl Refs.drop s.refs } := by
  have hunderway := h.underway t (mem_of_getElem? ht)
  have hremoving : t.phase ≠ .removing := by
    intro hp
    obtain ⟨info, hi', -⟩ := hunderway.gone hp
    rw [hi] at hi'
    cases hi'
  have hpromoted : t.phase ≠ .promoted := by
    intro hp
    obtain ⟨info, hi', -⟩ := hunderway.there hp
    rw [hi] at hi'
    cases hi'
  have hdue : t.due = [] := due_of_le hremoving (List.getElem?_eq_none_iff.1 hi)
  have hheld := held_of_ne_promoted hpromoted
  apply h.keep
  · intro x
    have hothers := count_flatMap_erase ht Informing.due x
    rw [hdue, count_nil] at hothers
    rw [count_of_places, count_of_places, hothers, Nat.zero_add]
  · intro τ w hτ
    have hothers := count_flatMap_erase ht Informing.held (τ, w)
    rw [count_held, count_held, hothers, hheld]
    dsimp only
    rw [foldl_drop hτ]
    push_cast
    ring
  · exact fun _ _ _ _ _ hmem => .inl hmem
  · exact h.distinct
  · intro τ hτ hmem
    apply h.not_gone hτ
    unfold held at hmem ⊢
    simp only [mem_append] at hmem ⊢
    refine hmem.imp_left fun hmem => hmem.imp_right fun hmem => ?_
    obtain ⟨t', ht', hmem⟩ := mem_flatMap.1 hmem
    exact mem_flatMap.2 ⟨t', mem_of_mem_eraseIdx ht', hmem⟩
  · exact fun t' ht' => (h.underway t' (mem_of_mem_eraseIdx ht')).mono (fun _ _ hs => hs)
      fun _ _ hmem _ _ => hmem
  · exact fun p hp => (h.onItsWay p hp).mono fun _ _ hs => hs
  · rfl

end

end

theorem Inv.handle (h : Inv s) {n : ℕ} (hp : s.posted[n]? = some p) :
    Inv ({ s with posted := s.posted.eraseIdx n }.handle p) := by
  obtain ⟨info, hstarted, hne, hbinder, hmethod, hcookie⟩ :=
    h.onItsWay p (mem_of_getElem? hp)
  unfold BInformant.handle
  simp only [hbinder, ne_eq, hne, not_false_eq_true, if_true]
  have hother : ∀ p' ∈ s.posted.eraseIdx n, p' ∈ s.posted := fun _ => mem_of_mem_eraseIdx
  apply h.keep
  · intro x
    have hothers := count_map_erase hp (fun p : Posted => (p.number, p.i)) x
    rw [count_of_places, count_of_places, hothers, flatMap_append, flatMap_singleton,
      Event.told, count_append]
    dsimp only
    omega
  · intro τ w hτ
    have hothers := count_map_erase hp Posted.held (τ, w)
    rw [Posted.held, hbinder] at hothers
    rw [count_held, count_held, hothers]
    dsimp only
    rw [dec_eq hτ]
    push_cast
    ring
  · intro number i target method args hmem
    rcases mem_append.1 hmem with hmem | hmem
    · exact .inl hmem
    · cases mem_singleton.1 hmem
      exact .inr ⟨info, hstarted, rfl, hmethod, hcookie⟩
  · exact h.distinct
  · intro τ hτ hmem
    apply h.not_gone hτ
    unfold held at hmem ⊢
    simp only [mem_append] at hmem ⊢
    refine hmem.imp_right fun hmem => ?_
    obtain ⟨p', hp', hmem⟩ := mem_map.1 hmem
    exact mem_map.2 ⟨p', hother p' hp', hmem⟩
  · exact fun t' ht' => (h.underway t' ht').mono (fun _ _ hs => hs) fun _ _ hmem _ _ => hmem
  · exact fun p' hp' => (h.onItsWay p' (hother p' hp')).mono fun _ _ hs => hs
  · rfl

theorem Inv.regone (h : Inv s) {gone : List (BitVec 32)}
    (halive : ∀ t, t ≠ 0 → (t, false) ∈ s.held → t ∉ gone)
    (hkeep : ∀ t, t ≠ 0 → (t, true) ∈ s.held → t ∈ s.gone → t ∈ gone) :
    Inv { s with gone := gone } := by
  apply h.keep
  · exact fun _ => rfl
  · exact fun _ _ _ => rfl
  · exact fun _ _ _ _ _ hmem => .inl hmem
  · exact h.distinct
  · exact halive
  · intro t ht
    refine (h.underway t ht).mono (fun _ _ hs => hs) ?_
    intro info hi hmem hweak hne
    refine hkeep info.mTarget hne ?_ hmem
    unfold held
    simp only [mem_append]
    refine .inl (.inr (mem_flatMap.2 ⟨t, ht, mem_append_left _ ?_⟩))
    refine mem_map.2 ⟨info, mem_of_getElem? hi, ?_⟩
    rw [ref, hweak]
  · exact fun p hp => (h.onItsWay p hp).mono fun _ _ hs => hs
  · rfl

/-- **What observing steps keep.** -/
theorem Inv.step (h : Inv s) {a : Action} (hs : BInformant.step s a = some s')
    (hob : Observes s a) : Inv s' := by
  cases a with
  | registerForCallback key info infoOk keyOk =>
    obtain ⟨hgone, hs⟩ := ite_none_left_eq_some.1 hs
    obtain ⟨⟩ := hs
    exact h.register hob hgone infoOk keyOk
  | unregisterForCallback key info =>
    obtain ⟨-, hs⟩ := ite_none_left_eq_some.1 hs
    obtain ⟨⟩ := hs
    exact h.unregister key info
  | inform key information copyOk =>
    obtain ⟨⟩ := hs
    exact h.inform key information hob
  | resume thread postOk =>
    obtain ⟨t, ht, hs⟩ := bind_eq_some_iff.1 hs
    split at hs
    · rename_i info hi
      obtain ⟨⟩ := hs
      have hob' := hob t info ht hi
      cases hphase : t.phase with
      | calling => exact h.resume_calling ht hi hphase postOk
      | promoted =>
        rw [hphase] at hob'
        exact h.resume_promoted ht hi hphase hob'.1 hob'.2.1 hob'.2.2
      | removing => exact h.resume_removing ht hphase postOk
    · rename_i hi
      obtain ⟨⟩ := hs
      exact h.finish ht hi
  | handleMessage n =>
    obtain ⟨p, hp, hs⟩ := bind_eq_some_iff.1 hs
    obtain ⟨⟩ := hs
    exact h.handle hp
  | die target =>
    obtain ⟨hcond, hs⟩ := ite_none_left_eq_some.1 hs
    obtain ⟨⟩ := hs
    refine h.regone ?_ fun t _ _ hmem => mem_cons_of_mem _ hmem
    intro t ht hmem hgone
    rcases mem_cons.1 hgone with rfl | hgone
    · -- a strong reference would be held to it
      have hpos : 0 < s.held.count (t, false) := count_pos_iff.2 hmem
      have hrefs := h.refs t false ht
      exact hcond (.inr (by omega))
    · exact h.not_gone ht hmem hgone
  | born target =>
    obtain ⟨hcond, hs⟩ := ite_none_left_eq_some.1 hs
    obtain ⟨⟩ := hs
    refine h.regone ?_ ?_
    · intro t ht hmem hgone
      exact h.not_gone ht hmem (mem_filter.1 hgone).1
    · intro t ht hmem hgone
      refine mem_filter.2 ⟨hgone, ?_⟩
      rw [bne_iff_ne]
      rintro rfl
      have hpos : 0 < s.held.count (t, true) := count_pos_iff.2 hmem
      have hrefs := h.refs t true ht
      exact hcond (.inr (by omega))

/-! ### What is claimed of a step -/

theorem exact_register {infoOk keyOk : Bool} (hreach : Reached s key info)
    (hgone : info.mTarget ∉ s.gone) (hne : info.mTarget ≠ 0) :
    Others s (s.register key info infoOk keyOk) key ∧
      (Registered s key info ∧ (s.register key info infoOk keyOk).callbacks = s.callbacks ∧
          (s.register key info infoOk keyOk).log = s.log ++ [.registered key info nameInUse] ∨
        ¬ Registered s key info ∧ (infoOk && keyOk) = false ∧
          (s.register key info infoOk keyOk).callbacks = s.callbacks ∧
          (s.register key info infoOk keyOk).log = s.log ++ [.registered key info noMemory] ∨
        ¬ Registered s key info ∧
          ((s.register key info infoOk keyOk).callbacks.find key).Perm
            (info :: s.callbacks.find key) ∧
          (s.register key info infoOk keyOk).log = s.log ++ [.registered key info 0]) := by
  unfold BInformant.register
  rcases InformList.add_cases s.gone s.callbacks key info infoOk keyOk with
    ⟨hhit, hadd⟩ | ⟨hmiss, hok, hadd⟩ | ⟨hmiss, hadd⟩
  · rw [hadd]
    exact ⟨fun _ _ => rfl, .inl ⟨(hit_iff_registered hreach hgone hne).1 hhit, rfl, rfl⟩⟩
  · rw [hadd]
    exact ⟨fun _ _ => rfl, .inr (.inl ⟨not_registered_of_miss hreach hmiss, hok, rfl, rfl⟩)⟩
  · rw [hadd]
    refine ⟨?_, .inr (.inr ⟨not_registered_of_miss hreach hmiss, ?_, rfl⟩)⟩
    · intro key' hkey
      rw [InformList.find_set, if_neg]
      exact fun hcode => hkey (SValue.equal_of_code hcode)
    · rw [InformList.find_set, if_pos rfl]
      exact perm_insertIdx info _ getOrderOf_le

theorem perm_cons_erase {α : Type} {l : List α} {i : ℕ} {a : α} (h : l[i]? = some a) :
    l.Perm (a :: l.eraseIdx i) := by
  obtain ⟨hlt, rfl⟩ := List.getElem?_eq_some_iff.1 h
  exact (getElem_cons_eraseIdx_perm hlt).symm

theorem exact_unregister (hreach : Reached s key info) (hgone : info.mTarget ∉ s.gone)
    (hne : info.mTarget ≠ 0) :
    Others s (s.unregister key info) key ∧
      ((∃ r, r.Same info ∧
          (s.callbacks.find key).Perm (r :: (s.unregister key info).callbacks.find key) ∧
          (s.unregister key info).log = s.log ++ [.unregistered key info 0]) ∨
        ¬ Registered s key info ∧
          (s.unregister key info).callbacks.find key = s.callbacks.find key ∧
          (s.unregister key info).log = s.log ++ [.unregistered key info nameNotFound]) := by
  obtain ⟨hothers, hcases⟩ := remove_spec s key info
  refine ⟨hothers, ?_⟩
  have hcallbacks : (s.unregister key info).callbacks =
      (s.callbacks.remove s.gone key info).1 := rfl
  have hlog : (s.unregister key info).log = s.log ++ [.unregistered key info
      (if (s.callbacks.remove s.gone key info).2.isSome then 0 else nameNotFound)] := rfl
  rw [hcallbacks, hlog]
  rcases hcases with ⟨hmiss, hnone, hfind, -⟩ | ⟨i, r, hhit, hr, hsome, hfind, -⟩
  · rw [hnone]
    exact .inr ⟨not_registered_of_miss hreach hmiss, hfind, rfl⟩
  · obtain ⟨r', hr', hsame⟩ := getOrderOf_same (congrArg Prod.fst hhit) hgone hne
    rw [hhit] at hr'
    obtain ⟨⟩ := hr.symm.trans hr'
    rw [hsome]
    refine .inl ⟨r, hsame, ?_, rfl⟩
    rw [hfind]
    exact perm_cons_erase hr

theorem Inv.exact_remove (h : Inv s) (hreach : Reached s key info)
    (hgone : info.mTarget = 0 ∨ info.isWeak = true ∧ info.mTarget ∈ s.gone) :
    ((s.callbacks.remove s.gone key info).1.find key = s.callbacks.find key ∨
      ∃ r, (r.mTarget = 0 ∨ r.isWeak = true ∧ r.mTarget ∈ s.gone) ∧
        (s.callbacks.find key).Perm (r :: (s.callbacks.remove s.gone key info).1.find key)) ∧
    ∀ r ∈ (s.callbacks.remove s.gone key info).1.find key, ¬ r.Same info := by
  rcases (remove_spec s key info).2 with ⟨hmiss, -, hfind, -⟩ | ⟨i, r, hhit, hr, -, hfind, -⟩
  · refine ⟨.inl hfind, fun r hr hsame => not_registered_of_miss hreach hmiss ⟨r, ?_, hsame⟩⟩
    rwa [hfind] at hr
  · have hzero : r.mTarget = 0 ∨ r.isWeak = true ∧ r.mTarget ∈ s.gone := by
      obtain ⟨r', hr', hcmp⟩ := getOrderOf_hit (congrArg Prod.fst hhit)
      rw [hhit] at hr'
      obtain ⟨⟩ := hr.symm.trans hr'
      apply target_eq_zero
      rw [← (compare_eq_iff.1 hcmp).2.1]
      exact target_zero hgone
    rw [hfind]
    have hperm := perm_cons_erase hr
    refine ⟨.inr ⟨r, hzero, hperm⟩, fun r' hr' hsame => ?_⟩
    -- the search leads to the registration, so that is what has been removed
    obtain ⟨j, hj⟩ := mem_iff_getElem?.1 (hperm.mem_iff.2 (mem_cons_of_mem r hr'))
    have hlead := getOrderOf_reached hj hsame (hreach j r' hj hsame)
    rw [hhit] at hlead
    obtain rfl : i = j := congrArg Prod.snd hlead
    obtain ⟨⟩ := hr.symm.trans hj
    have hsymm : ∀ l r : CallbackInfo, ¬ l.Same r → ¬ r.Same l := fun l r hne hs => hne hs.symm
    have hdistinct := (hperm.pairwise_iff (fun {l r} => hsymm l r)).1 (h.distinct key)
    exact (pairwise_cons.1 hdistinct).1 r hr' (Same.refl r)

theorem resume_callbacks (postOk : Bool) (info : CallbackInfo) (h : t.phase ≠ .removing) :
    (s.resume postOk t info).callbacks = s.callbacks := by
  unfold resume
  cases hp : t.phase with
  | removing => exact absurd hp h
  | calling =>
    dsimp only
    split <;> rfl
  | promoted =>
    dsimp only
    split
    · rfl
    · split <;> rfl

theorem told_silent (hlog : s'.log = s.log) : ∃ events, s'.log = s.log ++ events ∧ Told s events :=
  ⟨[], hlog.trans (append_nil _).symm, fun _ _ _ _ _ hmem => absurd hmem not_mem_nil,
    fun _ _ hmem => absurd hmem not_mem_nil⟩

/-- **What a thread in `Inform` says** of a registration. -/
theorem Inv.told_resume (h : Inv s) {thread : ℕ} (ht : s.informs[thread]? = some t)
    (hi : t.callbacks[t.i]? = some info) (postOk : Bool) :
    ∃ events,
      ({ s with informs := s.informs.eraseIdx thread }.resume postOk t info).log = s.log ++ events ∧
      Told s events := by
  have hsilent := told_silent (s := s) rfl
  cases hphase : t.phase with
  | calling =>
    simp only [resume, hphase]
    split
    · rename_i hzero
      refine ⟨[.missed t.number t.i], rfl, ?_, ?_⟩
      · intro number i target method args hmem
        cases mem_singleton.1 hmem
      · intro number i hmem
        cases mem_singleton.1 hmem
        obtain ⟨start, hs, hstart⟩ := h.startedWith ht hi
        exact ⟨start, info, hs, hstart, target_eq_zero hzero⟩
    · exact hsilent
  | promoted =>
    simp only [resume, hphase]
    split
    · refine ⟨[.called t.number t.i info.mTarget info.mMethod
        (callArgs t.information info.mCookie t.key)], rfl, ?_, ?_⟩
      · intro number i target method args hmem
        cases mem_singleton.1 hmem
        -- the thread holds on to what it has promoted
        obtain ⟨info', hi', hne⟩ := (h.underway t (mem_of_getElem? ht)).there hphase
        obtain ⟨⟩ := hi.symm.trans hi'
        apply h.not_gone hne
        have hheld : (info.mTarget, false) ∈ t.held := by
          rw [held_promoted hphase hi]
          exact mem_append_right _ (mem_singleton_self _)
        unfold held
        simp only [mem_append]
        exact .inl (.inr (mem_flatMap.2 ⟨t, mem_of_getElem? ht, hheld⟩))
      · intro number i hmem
        cases mem_singleton.1 hmem
    · split
      · exact hsilent
      · exact hsilent
  | removing =>
    simp only [resume, hphase]
    exact hsilent

theorem Inv.told_handle (h : Inv s) {n : ℕ} (hp : s.posted[n]? = some p) :
    ∃ event, ({ s with posted := s.posted.eraseIdx n }.handle p).log = s.log ++ [event] ∧
      ∃ target method args, event = .called p.number p.i target method args ∧ target ∉ s.gone := by
  have hmem := mem_of_getElem? hp
  obtain ⟨info, hstarted, hne, hbinder, -⟩ := h.onItsWay p hmem
  unfold BInformant.handle
  simp only [hbinder, ne_eq, hne, not_false_eq_true, if_true]
  refine ⟨_, rfl, _, _, _, rfl, ?_⟩
  apply h.not_gone hne
  unfold held
  refine mem_append_right _ (mem_map.2 ⟨p, hmem, ?_⟩)
  rw [Posted.held, hbinder]

/-- **What observing steps do.** -/
theorem Inv.exact (h : Inv s) {a : Action} (hob : Observes s a) : Exact s a where
  accounted := fun s' hs => (h.step hs hob).toAccounted
  registered := by
    rintro key info infoOk keyOk s' rfl hne hs
    obtain ⟨hgone, hs⟩ := ite_none_left_eq_some.1 hs
    obtain ⟨⟩ := hs
    exact exact_register hob hgone hne
  unregistered := by
    rintro key info s' rfl hne hs
    obtain ⟨hgone, hs⟩ := ite_none_left_eq_some.1 hs
    obtain ⟨⟩ := hs
    exact exact_unregister (hob hne) hgone hne
  informed := by
    rintro key information copyOk s' rfl hs
    obtain ⟨⟩ := hs
    exact ⟨rfl, rfl⟩
  removed := by
    rintro thread postOk t info s' rfl ht hi hs
    obtain ⟨t', ht', hs⟩ := bind_eq_some_iff.1 hs
    obtain ⟨⟩ := ht.symm.trans ht'
    simp only [hi] at hs
    obtain ⟨⟩ := hs
    have hob' := hob t info ht hi
    by_cases hphase : t.phase = .removing
    · rw [hphase] at hob'
      have hcallbacks : ({ s with informs := s.informs.eraseIdx thread }.resume postOk t
          info).callbacks = (s.callbacks.remove s.gone t.key info).1 := by
        simp only [resume, hphase]
      obtain ⟨info', hi', hgone⟩ := (h.underway t (mem_of_getElem? ht)).gone hphase
      obtain ⟨⟩ := hi.symm.trans hi'
      obtain ⟨hremoved, hleft⟩ := h.exact_remove hob' hgone
      unfold Others Registered
      rw [hcallbacks]
      refine ⟨(remove_spec s t.key info).1, hremoved, ?_⟩
      rintro - ⟨r, hr, hsame⟩
      exact hleft r hr hsame
    · unfold Others
      rw [resume_callbacks postOk info hphase]
      exact ⟨fun _ _ => rfl, .inl rfl, fun hp => absurd hp hphase⟩
  told := by
    intro s' hs
    cases a with
    | registerForCallback key info infoOk keyOk =>
      obtain ⟨-, hs⟩ := ite_none_left_eq_some.1 hs
      obtain ⟨⟩ := hs
      refine ⟨_, rfl, ?_, ?_⟩
      · intro number i target method args hmem
        cases mem_singleton.1 hmem
      · intro number i hmem
        cases mem_singleton.1 hmem
    | unregisterForCallback key info =>
      obtain ⟨-, hs⟩ := ite_none_left_eq_some.1 hs
      obtain ⟨⟩ := hs
      refine ⟨_, rfl, ?_, ?_⟩
      · intro number i target method args hmem
        cases mem_singleton.1 hmem
      · intro number i hmem
        cases mem_singleton.1 hmem
    | inform key information copyOk =>
      obtain ⟨⟩ := hs
      exact told_silent rfl
    | resume thread postOk =>
      obtain ⟨t, ht, hs⟩ := bind_eq_some_iff.1 hs
      split at hs
      · rename_i info hi
        obtain ⟨⟩ := hs
        exact h.told_resume ht hi postOk
      · obtain ⟨⟩ := hs
        exact told_silent rfl
    | handleMessage n =>
      obtain ⟨p, hp, hs⟩ := bind_eq_some_iff.1 hs
      obtain ⟨⟩ := hs
      obtain ⟨event, hlog, target, method, args, rfl, hgone⟩ := h.told_handle hp
      refine ⟨_, hlog, ?_, ?_⟩
      · intro number i target' method' args' hmem
        cases mem_singleton.1 hmem
        exact hgone
      · intro number i hmem
        cases mem_singleton.1 hmem
    | die target =>
      obtain ⟨-, hs⟩ := ite_none_left_eq_some.1 hs
      obtain ⟨⟩ := hs
      exact told_silent rfl
    | born target =>
      obtain ⟨-, hs⟩ := ite_none_left_eq_some.1 hs
      obtain ⟨⟩ := hs
      exact told_silent rfl

/-- A weak, synchronous registration of a target. -/
def weakOf (target : BitVec 32) : CallbackInfo := ⟨target, .int32 7, 3, .undefined⟩

/-- One registration that is called and taken back. -/
def oneCall : List Action :=
  [.registerForCallback .undefined (weakOf 1) true true, .inform .undefined .null true,
    .resume 0 true, .resume 0 true, .resume 0 true, .unregisterForCallback .undefined (weakOf 1)]

end OpenBinder.BInformant
