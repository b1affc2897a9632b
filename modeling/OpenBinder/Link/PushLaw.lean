import OpenBinder.Link.LinkLaw

/-!
# Links deliver what is pushed

* `PushMaps.addAll_groups`: what a push makes of the matching links.
* `LinkedBinder.joins_of_normal`: the joins of normalised values all have a result.
* `LinkedBinder.Inv`: what is kept by the steps that observe what they have to.
* `LinkedBinder.exact_of_linked`: **in every run whose steps observe it, each step is as claimed**.
-/

namespace OpenBinder

open Lib List Bool

namespace PushMaps

/-- What the links of a mode pass on, each to its target. -/
def tagged (sync : Bool) (l : List (LinksRec × Option SValue)) : List (ℕ × Option SValue) :=
  (l.filter fun o => o.1.isSync == sync).map fun o => (o.1.target, passed o)

/-- The groups of links. -/
def groups (l : List (LinksRec × Option SValue)) : PushMaps where
  syncGroup := Keyed.group PushGroup.joined (tagged true l)
  asyncGroup := if l.any (fun o => !o.1.isSync) then
    some (Keyed.group PushGroup.joined (tagged false l)) else none

theorem tagged_append (sync : Bool) (l : List (LinksRec × Option SValue))
    (o : LinksRec × Option SValue) : tagged sync (l ++ [o]) =
      tagged sync l ++ if o.1.isSync == sync then [(o.1.target, passed o)] else [] := by
  unfold tagged
  rw [filter_append, map_append]
  congr 1
  cases h : o.1.isSync == sync <;> simp [h]

theorem mem_given {l : List (LinksRec × Option SValue)} {sync : Bool} {target : ℕ}
    (h : ∃ o ∈ l, o.1.isSync = sync ∧ o.1.target = target) :
    Keyed.given (tagged sync l) target ≠ [] := by
  obtain ⟨o, ho, hsync, htarget⟩ := h
  apply ne_nil_of_mem (a := passed o)
  unfold Keyed.given tagged
  refine mem_map.2 ⟨(o.1.target, passed o), ?_, rfl⟩
  refine mem_filter.2 ⟨mem_map.2 ⟨o, mem_filter.2 ⟨ho, ?_⟩, rfl⟩, ?_⟩
  · simpa using hsync
  · simpa using htarget

theorem put_group {l : List (ℕ × Option SValue)} {itemOk : Bool} {target : ℕ}
    {value : Option SValue} (h : itemOk = true ∨ Keyed.given l target ≠ []) :
    PushGroup.put (Keyed.group PushGroup.joined l) itemOk target value =
      Keyed.group PushGroup.joined (l ++ [(target, value)]) := by
  unfold PushGroup.put
  rw [Keyed.group_append, if_pos]
  rw [Keyed.valueFor_group, or_eq_true]
  rcases h with h | h
  · exact .inr h
  · refine .inl (Option.isSome_iff_ne_none.2 ?_)
    rw [Ne, Keyed.merged_eq_none]
    exact h

/-- **One more link**, where there is memory for what is new. -/
theorem add_groups {l : List (LinksRec × Option SValue)} {o : LinksRec × Option SValue}
    {memory : Bool × Bool}
    (hgroup : o.1.isSync = false → memory.1 = true ∨ ∃ o' ∈ l, o'.1.isSync = false)
    (hitem : memory.2 = true ∨ ∃ o' ∈ l, o'.1.isSync = o.1.isSync ∧ o'.1.target = o.1.target) :
    (groups l).add memory o = groups (l ++ [o]) := by
  have hput : ∀ sync, o.1.isSync = sync →
      PushGroup.put (Keyed.group PushGroup.joined (tagged sync l)) memory.2 o.1.target (passed o) =
        Keyed.group PushGroup.joined (tagged sync (l ++ [o])) := by
    intro sync hsync
    rw [tagged_append, if_pos (by simpa using hsync)]
    exact put_group (hitem.imp_right fun h => mem_given (hsync ▸ h))
  have hother : ∀ sync, o.1.isSync ≠ sync → tagged sync (l ++ [o]) = tagged sync l := by
    intro sync hsync
    rw [tagged_append, if_neg (by simpa using hsync), append_nil]
  unfold add groups
  cases hs : o.1.isSync with
  | true =>
    simp only [if_true, hput true hs, hother false (by rw [hs]; exact nofun), any_append,
      any_cons, any_nil, hs, Bool.not_true, Bool.or_false]
  | false =>
    have hany : (l ++ [o]).any (fun o => !o.1.isSync) = true := by simp [hs]
    simp only [Bool.false_eq_true, if_false, hother true (by rw [hs]; exact nofun), hany, if_true]
    cases hl : l.any (fun o => !o.1.isSync) with
    | true =>
      simp only [if_true, Option.isNone_some, Bool.false_and, Bool.false_eq_true, if_false,
        Option.getD_some, hput false hs]
    | false =>
      -- the group is made for this link
      have hnone : tagged false l = [] := by
        unfold tagged
        rw [map_eq_nil_iff, filter_eq_nil_iff]
        intro o' ho'
        have := any_eq_false.1 hl o' ho'
        simpa using this
      have hmem : memory.1 = true := by
        refine (hgroup hs).resolve_right ?_
        rintro ⟨o', ho', hsync⟩
        have := any_eq_false.1 hl o' ho'
        simp [hsync] at this
      have hempty : (Keyed.empty : PushGroup) = Keyed.group PushGroup.joined (tagged false l) := by
        rw [hnone]
        rfl
      simp only [Bool.false_eq_true, if_false, Option.isNone_none, hmem, Bool.not_true,
        Bool.and_false, Option.getD_none, hempty, hput false hs]

theorem addAll_groups {memory : ℕ → Bool × Bool} (rest : List (LinksRec × Option SValue)) :
    ∀ done : List (LinksRec × Option SValue),
      (∀ i o, (done ++ rest)[i]? = some o → o.1.isSync = false → (memory i).1 = true ∨
        ∃ j o', j < i ∧ (done ++ rest)[j]? = some o' ∧ o'.1.isSync = false) →
      (∀ i o, (done ++ rest)[i]? = some o → (memory i).2 = true ∨
        ∃ j o', j < i ∧ (done ++ rest)[j]? = some o' ∧ o'.1.isSync = o.1.isSync ∧
          o'.1.target = o.1.target) →
      addAll memory done.length rest (groups done) = groups (done ++ rest) := by
  induction rest with
  | nil =>
    intro done _ _
    rw [addAll, append_nil]
  | cons o rest ih =>
    intro done hgroup hitem
    have hhere : (done ++ o :: rest)[done.length]? = some o := by simp
    have hbefore : ∀ {j o'}, j < done.length → (done ++ o :: rest)[j]? = some o' → o' ∈ done := by
      intro j o' hj h
      rw [List.getElem?_append_left hj] at h
      exact mem_of_getElem? h
    have hadd : (groups done).add (memory done.length) o = groups (done ++ [o]) := by
      refine add_groups (fun hs => ?_) ?_
      · refine (hgroup _ o hhere hs).imp_right ?_
        rintro ⟨j, o', hj, h, hs'⟩
        exact ⟨o', hbefore hj h, hs'⟩
      · refine (hitem _ o hhere).imp_right ?_
        rintro ⟨j, o', hj, h, hs'⟩
        exact ⟨o', hbefore hj h, hs'⟩
    have hassoc : done ++ o :: rest = done ++ [o] ++ rest := by simp
    have hlen : done.length + 1 = (done ++ [o]).length := by simp
    rw [addAll, hadd, hlen, hassoc]
    rw [hassoc] at hgroup hitem
    exact ih (done ++ [o]) hgroup hitem

end PushMaps

namespace LinkedBinder

open PushMaps

theorem given_tagged (s : LinkedBinder) (out : SValue) (sync : Bool) (target : ℕ) :
    Keyed.given (tagged sync (s.links.pushLinks s.gone out)) target = s.offers out sync target := by
  unfold Keyed.given tagged offers
  rw [filter_map, map_map, filter_filter]
  congr 1
  refine filter_congr fun o _ => ?_
  simp [Bool.and_comm, Bool.beq_eq_decide_eq]

theorem values_of_group (group : PushGroup) (h : ∀ t, group.valueFor t ≠ some none) :
    ∃ l : List (ℕ × SValue), group.items = l.map fun e => (e.1, some e.2) := by
  refine ⟨group.items.filterMap fun p => p.2.map (p.1, ·), ?_⟩
  have hall : ∀ p ∈ group.items, p.2 ≠ none := by
    rintro ⟨t, v⟩ hp rfl
    exact h t (Keyed.valueFor_eq_some.2 hp)
  generalize group.items = items at hall
  induction items with
  | nil => rfl
  | cons p rest ih =>
    obtain ⟨t, v⟩ := p
    cases v with
    | none => exact absurd rfl (hall _ mem_cons_self)
    | some v =>
      simp only [filterMap_cons, Option.map_some, map_cons]
      rw [← ih fun q hq => hall q (mem_cons_of_mem _ hq)]

theorem effects_of_group {s : LinkedBinder} {out : SValue} {sync : Bool}
    (h : ∀ t, Keyed.merged PushGroup.joined (s.offers out sync t) ≠ some none) :
    ∃ l, s.Effects out sync l ∧ s.told sync l = (PushedGroup.mk s.pushes (Keyed.group
      PushGroup.joined (tagged sync (s.links.pushLinks s.gone out)))).doPush sync := by
  let group : PushGroup := Keyed.group PushGroup.joined (tagged sync (s.links.pushLinks s.gone out))
  have hvalue : ∀ t, group.valueFor t = Keyed.merged PushGroup.joined (s.offers out sync t) := by
    intro t
    rw [Keyed.valueFor_group, given_tagged]
  obtain ⟨l, hl⟩ := values_of_group group fun t => by rw [hvalue]; exact h t
  refine ⟨l, ⟨?_, fun t v => ?_⟩, ?_⟩
  · have hnodup := group.nodup_keys
    rw [hl, map_map] at hnodup
    exact hnodup
  · rw [← hvalue, Keyed.valueFor_eq_some, hl, mem_map]
    constructor
    · intro hmem
      exact ⟨(t, v), hmem, rfl⟩
    · rintro ⟨e, he, heq⟩
      obtain ⟨rfl, hv⟩ := Prod.mk.inj heq
      rw [← Option.some.inj hv]
      exact he
  · unfold told PushedGroup.doPush
    show _ = group.items.map _
    rw [hl, map_map]
    rfl

/-! ### What is kept -/

/-- **What is kept** by the steps that observe what they have to: each link is one that the `Link`
of its number was to add. -/
structure Inv (holdRefForLink : SValue → BitVec 32 → Bool) (s : LinkedBinder) : Prop extends
    Accounted s where
  origin : ∀ x ∈ s.links.linked, ∃ c, s.calls[x.2.number]? = some c ∧
    x ∈ Links.asked holdRefForLink c.node c.binding c.flags x.2.number
  linkable : ∀ c ∈ s.calls, Linkable c.binding c.flags
  stamped : ∀ msg ∈ s.queue, msg.when ≤ s.now
  none : s.extensions = false → s.links = init.links

variable {holdRefForLink : SValue → BitVec 32 → Bool} {s s' : LinkedBinder}

theorem inv_init : Inv holdRefForLink init where
  unlocked := rfl
  strong := rfl
  inOrder := rfl
  origin := fun _ hx => absurd hx not_mem_nil
  linkable := fun _ hc => absurd hc not_mem_nil
  stamped := fun _ hm => absurd hm not_mem_nil
  none := fun _ => rfl

variable {node number : ℕ} {binding : SValue} {flags : BitVec 32} {x : Option (List ℤ) × LinksRec}

theorem asked_number (h : x ∈ Links.asked holdRefForLink node binding flags number) :
    x.2.number = number := by
  unfold Links.asked at h
  split at h
  · rw [mem_singleton.1 h]
    rfl
  · obtain ⟨p, -, rfl⟩ := mem_map.1 h
    rfl

/-- **What a `Link` is to add is hit** by an `Unlink` with its arguments. -/
theorem hits_asked {binding' : SValue}
 (hflags : flags &&& ~~~7#32 = 0)
    (h : x ∈ Links.asked holdRefForLink node binding flags number)
    (heq : binding.Equal binding') : Links.hits node binding' flags x = true := by
  have hmade : ∀ senderKey value value' : SValue, value.Equal value' →
      (Links.made holdRefForLink node flags number senderKey value).isOf node flags value' = true := by
    intro senderKey value value' hv
    unfold LinksRec.isOf Links.made
    rw [Links.finalFlags_mask hflags, show value.compare value' = .eq from hv]
    simp
  unfold Links.asked at h
  unfold Links.hits
  rw [← heq.isWild]
  split at h
  · rename_i hw
    rw [if_pos hw, mem_singleton.1 h]
    simpa using hmade .undefined binding binding' heq
  · rename_i hw
    rw [if_neg hw]
    obtain ⟨p, hp, rfl⟩ := mem_map.1 h
    obtain ⟨q, hq, hpq⟩ := heq.mem_items hp
    refine any_eq_true.2 ⟨q, hq, ?_⟩
    rw [and_eq_true]
    exact ⟨decide_eq_true (by rw [hpq.1.code]), hmade p.1 p.2 q.2 hpq.2⟩

section

variable (h : Inv holdRefForLink s)
include h

theorem inv_link {newOk : Bool} {memory : ℕ → Bool × Bool} (hgone : node ∉ s.gone)
    (hl : Linkable binding flags) (hq : s.Observes (.link node binding flags newOk memory)) :
    ∃ s' made status, step holdRefForLink s (.link node binding flags newOk memory) = some s' ∧
      made.Sublist (Links.asked holdRefForLink node binding flags s.calls.length) ∧
      (status = 0 → made = Links.asked holdRefForLink node binding flags s.calls.length) ∧
      s'.links.linked.Perm (s.links.linked ++ made) ∧
      s'.log = s.log ++ [.linked s.calls.length status] ∧ Inv holdRefForLink s' := by
  have hstep : step holdRefForLink s (.link node binding flags newOk memory) =
      s.link holdRefForLink node binding flags newOk memory := if_neg (by simp [h.unlocked, hgone, hl])
  have hcalls : ∀ c ∈ s.calls ++ [⟨node, binding, flags⟩], Linkable c.binding c.flags := by
    intro c hc
    rcases mem_append.1 hc with hc | hc
    · exact h.linkable c hc
    · rw [mem_singleton.1 hc]
      exact hl
  have horigin : ∀ x ∈ s.links.linked, ∃ c, (s.calls ++ [⟨node, binding, flags⟩])[x.2.number]? =
      some c ∧ x ∈ Links.asked holdRefForLink c.node c.binding c.flags x.2.number := by
    intro x hx
    obtain ⟨c, hc, hmem⟩ := h.origin x hx
    refine ⟨c, ?_, hmem⟩
    rw [List.getElem?_append_left (List.getElem?_eq_some_iff.1 hc).1, hc]
  have horder : ∀ status : ℤ, (s.log ++ [LinkEvent.linked s.calls.length status]).filter isAsync =
      s.log.filter isAsync := by
    intro status
    simp [isAsync]
  rw [hstep]
  unfold link
  by_cases hnew : s.extensions = false ∧ newOk = false
  · rw [if_pos (by rw [hnew.1, hnew.2]; rfl)]
    refine ⟨_, [], noMemory, rfl, nil_sublist _, fun h0 => absurd h0 (by decide), ?_, rfl, ?_⟩
    · rw [append_nil]
    · exact ⟨⟨h.unlocked, h.strong, by rw [horder, h.inOrder]⟩, horigin, hcalls, h.stamped, h.none⟩
  · obtain ⟨t, new, hlink, hlocked, hadds, hsub, hall⟩ := @Links.link_adds holdRefForLink flags node
      s.calls.length binding memory s.links hl.1 hl.2 (hq.resolve_left hnew)
    have hcond : ¬ (!s.extensions && !newOk) = true := by
      intro hcond
      rw [and_eq_true, not_eq_true', not_eq_true'] at hcond
      exact hnew hcond
    rw [if_neg hcond, hlink]
    refine ⟨_, new, t.result, rfl, hsub, hall, hadds.linked, rfl, ?_⟩
    refine ⟨⟨hlocked, ?_, by rw [horder, h.inOrder]⟩, ?_, hcalls, h.stamped, nofun⟩
    · rw [hadds.strong, hadds.linked.countP_eq, countP_append, h.strong]
      rfl
    · intro x hx
      rcases mem_append.1 (hadds.linked.mem_iff.1 hx) with hx | hx
      · exact horigin x hx
      · have hasked := hsub.subset hx
        rw [asked_number hasked]
        exact ⟨⟨node, binding, flags⟩, by simp, hasked⟩

theorem Inv.drop {gone : Option (List ℤ) × LinksRec → Bool} {links : Links}
    (hd : Links.Drops gone s.links links) (hext : s.extensions = true) :
    Inv holdRefForLink { s with links := links, log := s.log ++ [.unlinked 0] } where
  unlocked := h.unlocked
  strong := by
    have hcount : (s.links.linked.countP fun x => x.2.hasRef) =
        (s.links.linked.filter fun x => !gone x).countP (fun x => x.2.hasRef) +
          s.links.linked.countP fun x => gone x && x.2.hasRef := by
      rw [countP_filter]
      induction s.links.linked with
      | nil => rfl
      | cons x l ih =>
        simp only [countP_cons]
        cases gone x <;> cases x.2.hasRef <;> simp <;> omega
    show links.strong = _
    rw [hd.strong, hd.linked.countP_eq, h.strong]
    omega
  inOrder := by
    rw [← h.inOrder]
    simp [isAsync]
  origin := fun x hx => h.origin x (mem_of_mem_filter (hd.linked.mem_iff.1 hx))
  linkable := h.linkable
  stamped := h.stamped
  none := fun hnone => absurd hnone (by rw [hext]; exact nofun)

theorem linked_nil (hext : s.extensions = false) : s.links.linked = [] := by
  rw [h.none hext]
  rfl

/-- **An `Unlink`**, when the links that it is about are those of a description. -/
theorem inv_unlink {gone : Option (List ℤ) × LinksRec → Bool}
    (hd : s.extensions = true → ∃ links, s.links.unlink node binding flags = some links ∧
      Links.Drops gone s.links links) :
    ∃ s', step holdRefForLink s (.unlink node binding flags) = some s' ∧
      s'.links.linked.Perm (s.links.linked.filter fun x => !gone x) ∧ Inv holdRefForLink s' := by
  have hstep : step holdRefForLink s (.unlink node binding flags) =
      s.unlink node binding flags := if_neg (by simp [h.unlocked])
  rw [hstep]
  unfold unlink
  by_cases hext : s.extensions = false
  · rw [if_pos (by rw [hext]; rfl)]
    have hnil := linked_nil h hext
    refine ⟨_, rfl, ?_, ⟨⟨h.unlocked, h.strong, ?_⟩, h.origin, h.linkable, h.stamped, h.none⟩⟩
    · rw [hnil]
      exact .refl _
    · rw [← h.inOrder]
      simp [isAsync]
  · rw [if_neg (by simpa using hext)]
    obtain ⟨links, hlinks, hdrops⟩ := hd (eq_true_of_not_eq_false hext)
    rw [hlinks]
    exact ⟨_, rfl, hdrops.linked, h.drop hdrops (eq_true_of_not_eq_false hext)⟩

end

theorem enqueue_last {D : Type} {msg : SMessage D} {time : ℤ} {queue : List (SMessage D)}
    (hwhen : msg.when = 0) (hq : ∀ m ∈ queue, m.when ≤ time) :
    SMessageList.enqueueMessage msg time queue = queue ++ [{ msg with when := time }] := by
  have hstamp : SMessageList.stamp msg.when time = time := by
    unfold SMessageList.stamp
    rw [hwhen, if_pos (le_refl 0)]
  have hlast : ∀ hl : queue ≠ [], ¬ decide (time < (queue.getLast hl).when) = true := by
    intro hl hlt
    exact absurd (of_decide_eq_true hlt) (not_lt.2 (hq _ (getLast_mem hl)))
  unfold SMessageList.enqueueMessage SMessageList.before SMessageList.after
  simp only [hstamp]
  rw [ rdropWhile_eq_self_iff.2 hlast, rtakeWhile_eq_nil_iff.2 hlast]

theorem filter_doPush (p : PushedGroup) :
    (p.doPush true).filter isAsync = [] ∧ (p.doPush false).filter isAsync = p.doPush false := by
  unfold PushedGroup.doPush
  constructor
  · rw [filter_eq_nil_iff]
    rintro e he
    obtain ⟨item, -, rfl⟩ := mem_map.1 he
    exact false_ne_true
  · rw [filter_eq_self]
    rintro e he
    obtain ⟨item, -, rfl⟩ := mem_map.1 he
    rfl

theorem tagged_false_nil {l : List (LinksRec × Option SValue)}
    (h : l.any (fun o => !o.1.isSync) = false) : tagged false l = [] := by
  unfold tagged
  rw [map_eq_nil_iff, filter_eq_nil_iff]
  intro o ho
  have := any_eq_false.1 h o ho
  simpa using this

section

variable (h : Inv holdRefForLink s)
include h

theorem inv_push {out : SValue} {time : ℤ} {memory : ℕ → Bool × Bool} {postOk : Bool}
    (htime : s.now ≤ time) (hq : s.Observes (.push out time memory postOk)) :
    ∃ s' now later, step holdRefForLink s (.push out time memory postOk) = some s' ∧
      s.Effects out true now ∧ s.Effects out false later ∧ s'.links = s.links ∧
      s'.log = s.log ++ s.told true now ++ [.pushed s.pushes 0] ∧
      s'.due = s.due ++ s.told false later ∧ Inv holdRefForLink s' := by
  obtain ⟨hok, hjoin⟩ := hq
  have hstep : step holdRefForLink s (.push out time memory postOk) =
      some (s.push out time memory postOk) := if_neg (by simp [h.unlocked, htime])
  have hoffers : (if s.extensions then s.links.pushLinks s.gone out else []) =
      s.links.pushLinks s.gone out := by
    by_cases hext : s.extensions = true
    · rw [if_pos hext]
    · rw [if_neg hext, h.none (by simpa using hext)]
      simp [Links.pushLinks, init, Keyed.empty, Keyed.valueFor_eq_none.2]
  have hmaps : addAll memory 0 (s.links.pushLinks s.gone out) ⟨Keyed.empty, none⟩ =
      groups (s.links.pushLinks s.gone out) := addAll_groups _ [] hok.group hok.item
  obtain ⟨now, hnow, htoldNow⟩ := effects_of_group (hjoin true)
  obtain ⟨later, hlater, htoldLater⟩ := effects_of_group (hjoin false)
  have hstamped : ∀ msg ∈ s.queue, msg.when ≤ time := fun msg hm => (h.stamped msg hm).trans htime
  refine ⟨_, now, later, hstep, hnow, hlater, ?_⟩
  unfold push
  simp only [hoffers, hmaps]
  unfold doPush groups
  cases hany : (s.links.pushLinks s.gone out).any (fun o => !o.1.isSync) with
  | false =>
    have hnone : s.told false later = [] := by
      rw [htoldLater, tagged_false_nil hany]
      rfl
    simp only [Bool.false_eq_true, if_false]
    refine ⟨trivial, by rw [htoldNow], by rw [hnone, append_nil], ?_⟩
    refine ⟨⟨h.unlocked, h.strong, ?_⟩, h.origin, h.linkable, hstamped, h.none⟩
    simp only [filter_append, (filter_doPush _).1, append_nil]
    rw [← h.inOrder]
    simp [isAsync]
  | true =>
    have hpost : postOk = true := by
      refine hok.post.resolve_right fun hall => ?_
      obtain ⟨o, ho, hasync⟩ := any_eq_true.1 hany
      simp [hall o ho] at hasync
    simp only [if_true, hpost]
    rw [enqueue_last rfl hstamped]
    refine ⟨trivial, by rw [htoldNow], by rw [htoldLater], ?_⟩
    refine ⟨⟨h.unlocked, h.strong, ?_⟩, h.origin, h.linkable, ?_, h.none⟩
    · simp only [filter_append, (filter_doPush _).1, append_nil, flatMap_append,
        flatMap_cons, flatMap_nil]
      rw [← h.inOrder]
      simp [isAsync]
    · intro msg hm
      rcases mem_append.1 hm with hm | hm
      · exact hstamped msg hm
      · rw [mem_singleton.1 hm]

theorem inv_handleMessage (hs : s.handleMessage = some s') : Inv holdRefForLink s' := by
  unfold handleMessage SMessageList.dequeueMessage at hs
  rw [if_pos rfl] at hs
  cases hqueue : s.queue with
  | nil =>
    rw [hqueue] at hs
    cases hs
  | cons msg rest =>
    rw [hqueue] at hs
    obtain ⟨⟩ := hs
    refine ⟨⟨h.unlocked, h.strong, ?_⟩, h.origin, h.linkable, ?_, h.none⟩
    · have horder := h.inOrder
      rw [hqueue, flatMap_cons] at horder
      rw [filter_append, (filter_doPush _).2, append_assoc]
      exact horder
    · intro m hm
      exact h.stamped m (by rw [hqueue]; exact mem_cons_of_mem _ hm)

theorem not_fatal (hext : s.extensions = true) (hflags : flags &&& unlinkAllTargets = 0)
    (hb : ¬ (binding.isWild = true ∨ ∀ p ∈ binding.items, p.1.isSimple = true)) :
    step holdRefForLink s (.unlink node binding flags) ≠ some s' := by
  obtain ⟨hw, hsimple⟩ := not_or.1 hb
  have hnone : s.links.unlink node binding flags = none := by
    unfold Links.unlink
    rw [if_neg (by simpa using hflags), if_neg hw, if_neg]
    rwa [all_eq_true]
  have hstep : step holdRefForLink s (.unlink node binding flags) =
      s.unlink node binding flags := if_neg (by simp [h.unlocked])
  rw [hstep]
  unfold unlink
  rw [if_neg (by simp [hext]), hnone]
  exact nofun

/-- **The links that an `Unlink` hits** are those of the `Link` with its arguments. -/
theorem hits_iff {n : ℕ}
 (hn : s.Given n ⟨node, binding, flags⟩)
    (hone : ∀ x ∈ s.links.linked, Links.hits node binding flags x = true → x.2.number = n)
    (hx : x ∈ s.links.linked) : Links.hits node binding flags x = decide (x.2.number = n) := by
  rw [Bool.eq_iff_iff, decide_eq_true_iff]
  refine ⟨hone x hx, ?_⟩
  rintro rfl
  obtain ⟨c, hc, hasked⟩ := h.origin x hx
  obtain ⟨c', hc', rfl, hbinding, rfl⟩ := hn
  obtain ⟨⟩ := hc.symm.trans hc'
  exact hits_asked (h.linkable c (mem_of_getElem? hc)).2 hasked hbinding

end

/-- **A step that observes what it has to.** -/
theorem exact_of_step (h : Inv holdRefForLink s) {a : Action}
    (hs : step holdRefForLink s a = some s') (hq : s.Observes a) :
    Exact holdRefForLink s a ∧ Inv holdRefForLink s' := by
  have hacc : Inv holdRefForLink s' → ∀ s'', step holdRefForLink s a = some s'' → Accounted s'' := by
    intro hinv s'' hs''
    obtain rfl := Option.some.inj (hs.symm.trans hs'')
    exact hinv.toAccounted
  cases a with
  | link node binding flags newOk memory =>
    have hguard : node ∉ s.gone ∧ Linkable binding flags := by
      by_contra hcon
      have hnone : step holdRefForLink s (.link node binding flags newOk memory) = none := by
        refine if_pos ?_
        by_cases hgone : node ∈ s.gone
        · exact .inr (.inl hgone)
        · exact .inr (.inr fun hl => hcon ⟨hgone, hl⟩)
      rw [hnone] at hs
      cases hs
    obtain ⟨t, made, status, ht, hsub, hall, hlinked, hlog, hinv⟩ :=
      inv_link h hguard.1 hguard.2 hq
    obtain rfl := Option.some.inj (ht.symm.trans hs)
    refine ⟨⟨hacc hinv, ?_, nofun, nofun, nofun⟩, hinv⟩
    intro node' binding' flags' newOk' memory' ha _ _
    cases ha
    exact ⟨t, made, status, hs, hsub, hall, hlinked, hlog⟩
  | unlink node binding flags =>
    by_cases hflags : flags &&& unlinkAllTargets = 0
    · have hd : s.extensions = true → ∃ links, s.links.unlink node binding flags = some links ∧
          Links.Drops (Links.hits node binding flags) s.links links := by
        intro hext
        refine Links.unlink_drops s.links hflags ?_
        by_contra hcon
        exact not_fatal h hext hflags hcon hs
      obtain ⟨t, ht, hlinked, hinv⟩ := inv_unlink h hd
      obtain rfl := Option.some.inj (ht.symm.trans hs)
      refine ⟨⟨hacc hinv, nofun, ?_, ?_, nofun⟩, hinv⟩
      · intro node' binding' flags' ha _ hgiven
        cases ha
        obtain ⟨n, hn, hone⟩ := hq hflags hgiven
        refine ⟨t, n, hs, hn, hlinked.trans (List.Perm.of_eq (filter_congr fun x hx => ?_))⟩
        rw [hits_iff h hn hone hx]
        simp
      · intro node' binding' flags' ha hflags'
        cases ha
        exact absurd hflags hflags'
    · obtain ⟨t, ht, hlinked, hinv⟩ := inv_unlink h fun _ =>
        Links.unlink_drops_all s.links hflags
      obtain rfl := Option.some.inj (ht.symm.trans hs)
      refine ⟨⟨hacc hinv, nofun, ?_, ?_, nofun⟩, hinv⟩
      · intro node' binding' flags' ha hflags'
        cases ha
        exact absurd hflags' hflags
      · intro node' binding' flags' ha _
        cases ha
        refine ⟨t, hs, hlinked.trans (List.Perm.of_eq (filter_congr fun x _ => ?_))⟩
        simp [eq_comm]
  | push out time memory postOk =>
    have hguard : s.now ≤ time := by
      by_contra hcon
      have hnone : step holdRefForLink s (.push out time memory postOk) = none :=
        if_pos (.inr (not_le.1 hcon))
      rw [hnone] at hs
      cases hs
    obtain ⟨t, now, later, ht, hnow, hlater, hlinks, hlog, hdue, hinv⟩ := inv_push h hguard hq
    obtain rfl := Option.some.inj (ht.symm.trans hs)
    refine ⟨⟨hacc hinv, nofun, nofun, nofun, ?_⟩, hinv⟩
    intro out' time' memory' postOk' ha _
    cases ha
    exact ⟨t, now, later, hs, hnow, hlater, hlinks, hlog, hdue⟩
  | handleMessage =>
    have hinv := inv_handleMessage h hs
    exact ⟨⟨hacc hinv, nofun, nofun, nofun, nofun⟩, hinv⟩
  | die target =>
    have hinv : Inv holdRefForLink s' := by
      unfold step at hs
      simp only at hs
      split at hs
      · cases hs
      · obtain ⟨⟩ := hs
        exact ⟨⟨h.unlocked, h.strong, h.inOrder⟩, h.origin, h.linkable, h.stamped, h.none⟩
    exact ⟨⟨hacc hinv, nofun, nofun, nofun, nofun⟩, hinv⟩

/-- A value that there is, and that is normalised. -/
def IsNormal (v : Option SValue) : Prop := ∃ w, v = some w ∧ w.isNormal = true

theorem merged_of_normal {l : List (Option SValue)} (h : ∀ v ∈ l, IsNormal v) :
    Keyed.merged PushGroup.joined l ≠ some none := by
  have hfold : ∀ (rest : List (Option SValue)) (v : Option SValue), IsNormal v →
      (∀ u ∈ rest, IsNormal u) → IsNormal (rest.foldl PushGroup.joined v) := by
    intro rest
    induction rest with
    | nil => exact fun v hv _ => hv
    | cons u rest ih =>
      rintro v ⟨w, rfl, hw⟩ hall
      obtain ⟨w', rfl, hw'⟩ := hall u mem_cons_self
      obtain ⟨r, hr, hjoined⟩ := SValue.join_spec (rfl : Flags.none.noRecursion = false) w' w hw hw'
      exact ih _ ⟨r, hr, hjoined.normal⟩ fun u hu => hall u (mem_cons_of_mem _ hu)
  cases l with
  | nil => exact nofun
  | cons v rest =>
    obtain ⟨w, hw, -⟩ := hfold rest v (h v mem_cons_self)
      fun u hu => h u (mem_cons_of_mem _ hu)
    rw [show Keyed.merged PushGroup.joined (v :: rest) = some (some w) from congrArg some hw]
    exact nofun

theorem items_normal {v : SValue} (h : v.isNormal = true) :
    ∀ p ∈ v.items, p.1.isNormal = true ∧ p.2.isNormal = true := by
  intro p hp
  by_cases hs : v.isSimple = true
  · rw [SValue.items_of_isSimple hs] at hp
    split at hp
    · cases hp
    · split at hp
      · rw [mem_singleton.1 hp]
        exact ⟨rfl, h⟩
      · cases hp
  · cases v with
    | map m => exact (SValue.isNormal_map.1 h).1.normal p hp
    | small type data => exact absurd (SValue.isSimple_small type data) hs
    | large type buffer => exact absurd (SValue.isSimple_large type buffer) hs

theorem asked_normal
 (hb : binding.isNormal = true)
    (h : x ∈ Links.asked holdRefForLink node binding flags number) :
    x.2.value.isNormal = true ∧ (x.1 = none → x.2.value.isWild = true) := by
  unfold Links.asked at h
  split at h
  · rename_i hw
    rw [mem_singleton.1 h]
    exact ⟨hb, fun _ => hw⟩
  · obtain ⟨p, hp, rfl⟩ := mem_map.1 h
    exact ⟨(items_normal hb p hp).2, nofun⟩

/-- **The joins of normalised values all have a result.** -/
theorem joins_of_normal (h : Inv holdRefForLink s) (hcalls : ∀ c ∈ s.calls, c.binding.isNormal = true)
    (out : SValue) (hout : out.isNormal = true) (sync : Bool) (t : ℕ) :
    Keyed.merged PushGroup.joined (s.offers out sync t) ≠ some none := by
  have hlink : ∀ x ∈ s.links.linked, x.2.value.isNormal = true ∧
      (x.1 = none → x.2.value.isWild = true) := by
    intro x hx
    obtain ⟨c, hc, hasked⟩ := h.origin x hx
    exact asked_normal (hcalls c (mem_of_getElem? hc)) hasked
  refine merged_of_normal fun v hv => ?_
  obtain ⟨o, ho, rfl⟩ := mem_map.1 hv
  have hoffer : o.1.value.isNormal = true ∧ IsNormal o.2 := by
    rcases mem_append.1 (mem_filter.1 ho).1 with ho | ho
    · -- a link of the sender key of an item
      obtain ⟨p, hp, hmem⟩ := mem_flatMap.1 ho
      obtain ⟨ent, hent, hoffered⟩ := mem_filterMap.1 hmem
      unfold Links.offered at hoffered
      split at hoffered
      · obtain ⟨⟩ := hoffered
        have hvalue : ent.value.isNormal = true := by
          cases hv : s.links.links.valueFor p.1.code with
          | none =>
            rw [hv] at hent
            cases hent
          | some l =>
            rw [hv] at hent
            refine (hlink (some p.1.code, ent) (mem_append_left _ ?_)).1
            exact mem_map.2 ⟨(p.1.code, ent),
              Keyed.mem_entries.2 ⟨l, Keyed.valueFor_eq_some.1 hv, hent⟩, rfl⟩
        obtain ⟨r, hr, hmade, -⟩ := SValue.initAsMap_spec ent.value Flags.none p.2 hvalue
          (items_normal hout p hp).2
        exact ⟨hvalue, r, hr, hmade.normal⟩
      · cases hoffered
    · -- a `WILD` link
      obtain ⟨ent, hent, hoffered⟩ := mem_filterMap.1 ho
      obtain ⟨hvalue, hwild⟩ := hlink (none, ent) (mem_append_right _
        (mem_map.2 ⟨ent, hent, rfl⟩))
      unfold Links.otherOffered at hoffered
      simp only [hwild rfl, Bool.true_or, Bool.not_true, Bool.false_and, Bool.false_eq_true,
        if_false] at hoffered
      split at hoffered
      · obtain ⟨⟩ := hoffered
        exact ⟨hvalue, out, rfl, hout⟩
      · cases hoffered
  unfold passed
  split
  · exact ⟨_, rfl, hoffer.1⟩
  · exact hoffer.2

/-- **Links deliver pushes and go away when unlinked**: in every run whose steps observe what they
have to, each step does what is claimed. -/
theorem exact_of_linked (holdRefForLink : SValue → BitVec 32 → Bool) (as : List Action)
    (h : AllSteps (step holdRefForLink) Observes init as) :
    AllSteps (step holdRefForLink) (Exact holdRefForLink) init as :=
  AllSteps.imp (fun _ _ _ hinv hs hq => exact_of_step hinv hs hq) as init inv_init h

/-- Two targets are linked to a binder, one of them to all that it sends. -/
theorem exact_of_linked_two : AllSteps (step fun _ _ => true) (Exact fun _ _ => true) init
    [.link 1 (.int32 5) 0 true fun _ => (true, true), .link 2 .wild 2 true fun _ => (true, true),
      .push (.int32 5) 7 (fun _ => (true, true)) true, .handleMessage,
      .unlink 1 (.int32 5) 0] := by
  refine exact_of_linked _ _ ?_
  have hq₁ : init.Observes (.link 1 (.int32 5) 0 true fun _ => (true, true)) :=
    .inr (.inr ⟨fun _ _ _ => .inl rfl, .inl fun _ _ => rfl⟩)
  have hinv₁ := (@exact_of_step (fun _ _ => true) _ _ inv_init _ rfl hq₁).2
  refine .cons rfl hq₁ ?_
  have hinv₂ := (@exact_of_step (fun _ _ => true) _ _ hinv₁
    (.link 2 .wild 2 true fun _ => (true, true)) rfl (.inr (.inl rfl))).2
  refine .cons rfl (.inr (.inl rfl)) ?_
  have hjoins := joins_of_normal hinv₂ (by decide) (.int32 5) rfl
  refine .cons rfl ⟨⟨fun _ _ _ _ => .inl rfl, fun _ _ _ => .inl rfl, .inl rfl⟩, hjoins⟩ ?_
  refine .cons rfl trivial (.cons rfl (fun _ _ => ⟨0, ⟨_, rfl, rfl, .refl _, rfl⟩, ?_⟩) trivial)
  decide

/-- **The lock and the reference are kept** where there is no memory for the key of a link. -/
theorem linked_keeps_lock : ¬ ∀ holdRefForLink as,
    AllSteps (step holdRefForLink) (Exact holdRefForLink) init as := by
  intro hrun
  have h := hrun (fun _ _ => true) [.link 1 (.int32 5) 0 true fun _ => (false, true)] _ rfl
  exact absurd (h.1.accounted _ rfl).unlocked (by decide)

end LinkedBinder

end OpenBinder
