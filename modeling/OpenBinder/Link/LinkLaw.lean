import OpenBinder.Link.Link

/-!
# What links are added and removed

A `Link` adds links to a table and the references for them, an `Unlink` takes both away.

* `Links.Adds`, `Links.Drops`: what a change does to the links and to the references.
* `Links.link_adds`: a `Link` whose keys there is memory for.
* `Links.unlink_drops`, `Links.unlink_drops_all`: an `Unlink`.
-/

namespace OpenBinder

open Lib List

namespace SValue

theorem Equal.items {v w : SValue} (h : v.Equal w) :
    List.Forall₂ (fun p q => p.1.Equal q.1 ∧ p.2.Equal q.2) v.items w.items := by
  by_cases hs : v.isSimple = true
  · have hs' : w.isSimple = true := by rw [← isSimple_code h.code, hs]
    rw [items_of_isSimple hs, items_of_isSimple hs', isError_code h.code, h.isDefined]
    by_cases he : w.isError = true
    · simp [he]
    · by_cases hd : w.isDefined = true
      · simp only [he, hd, if_true, Bool.false_eq_true, if_false]
        exact .cons ⟨.refl _, h⟩ .nil
      · simp [he, hd]
  · obtain ⟨m, rfl⟩ : ∃ m, v = .map m := by
      cases v with
      | map m => exact ⟨m, rfl⟩
      | small type data => exact absurd (isSimple_small type data) hs
      | large type buffer => exact absurd (isSimple_large type buffer) hs
    obtain ⟨m', rfl⟩ := h.map
    refine (forall₂_of_code h.code).imp ?_
    intro p q hpq
    exact ⟨equal_of_code hpq.1, equal_of_code hpq.2⟩

theorem Equal.mem_items {v w : SValue} (h : v.Equal w) {p : Pair} (hp : p ∈ v.items) :
    ∃ q ∈ w.items, p.1.Equal q.1 ∧ p.2.Equal q.2 := by
  obtain ⟨i, hi⟩ := mem_iff_getElem?.1 hp
  rcases getElem?_of_forall₂ h.items i with ⟨hnone, -⟩ | ⟨p', q, hp', hq, hpq⟩
  · rw [hi] at hnone
    cases hnone
  · obtain ⟨⟩ := hi.symm.trans hp'
    exact ⟨q, mem_of_getElem? hq, hpq⟩

end SValue

theorem linkFlags_cases {flags : BitVec 32} (h : flags &&& ~~~7#32 = 0) :
    ∃ k < 8, flags = BitVec.ofNat 32 k := by
  have hsplit : flags = flags &&& 7#32 ||| flags &&& ~~~7#32 := by
    ext i hi
    simp only [BitVec.getElem_or, BitVec.getElem_and, BitVec.getElem_not]
    cases flags[i] <;> simp
  rw [h] at hsplit
  have hand : flags = flags &&& 7#32 := by simpa using hsplit
  refine ⟨flags.toNat, ?_, by simp⟩
  rw [hand, BitVec.toNat_and]
  exact lt_of_le_of_lt Nat.and_le_right (by decide)

namespace Links

variable {holdRefForLink : SValue → BitVec 32 → Bool} {senderKey : SValue} {flags : BitVec 32}

theorem hasRef_finalFlags (h : flags &&& ~~~7#32 = 0) :
    (finalFlags holdRefForLink senderKey flags &&& kLinkHasRef != 0) =
      holdRefForLink senderKey flags := by
  obtain ⟨k, hk, rfl⟩ := linkFlags_cases h
  unfold finalFlags
  cases holdRefForLink senderKey (BitVec.ofNat 32 k) <;>
    · simp only [if_true, Bool.false_eq_true, if_false]
      interval_cases k <;> decide

theorem finalFlags_mask (h : flags &&& ~~~7#32 = 0) :
    finalFlags holdRefForLink senderKey flags &&& ~~~kPrivateLinkFlagMask = flags := by
  obtain ⟨k, hk, rfl⟩ := linkFlags_cases h
  unfold finalFlags
  cases holdRefForLink senderKey (BitVec.ofNat 32 k) <;>
    · simp only [if_true, Bool.false_eq_true, if_false]
      interval_cases k <;> decide

/-! ### Links that go -/

/-- **Links go**, with their references. -/
structure Drops (gone : Option (List ℤ) × LinksRec → Bool) (s s' : Links) : Prop where
  linked : s'.linked.Perm (s.linked.filter fun x => !gone x)
  strong : s'.strong = s.strong - (s.linked.countP fun x => gone x && x.2.hasRef : ℕ)

theorem Drops.refl (s : Links) : Drops (fun _ => false) s s where
  linked := by simp
  strong := by simp

variable {s s' : Links} {node : ℕ}

theorem Drops.trans {f g : Option (List ℤ) × LinksRec → Bool} {s'' : Links} (h : Drops f s s')
    (h' : Drops g s' s'') : Drops (fun x => f x || g x) s s'' where
  linked := by
    refine h'.linked.trans ((h.linked.filter _).trans ?_)
    rw [filter_filter]
    refine List.Perm.of_eq (filter_congr fun x _ => ?_)
    rw [Bool.not_or, Bool.and_comm]
  strong := by
    have hcount : (s'.linked.countP fun x => g x && x.2.hasRef) +
        (s.linked.countP fun x => f x && x.2.hasRef) =
          s.linked.countP fun x => (f x || g x) && x.2.hasRef := by
      rw [h.linked.countP_eq, countP_filter]
      induction s.linked with
      | nil => rfl
      | cons x l ih =>
        simp only [countP_cons]
        cases f x <;> cases g x <;> cases x.2.hasRef <;> simp <;> omega
    rw [h'.strong, h.strong]
    omega

theorem Drops.congr {f g : Option (List ℤ) × LinksRec → Bool} (h : Drops f s s')
    (hfg : ∀ x ∈ s.linked, f x = g x) : Drops g s s' where
  linked := by
    refine h.linked.trans (List.Perm.of_eq (filter_congr fun x hx => ?_))
    rw [hfg x hx]
  strong := by
    rw [h.strong]
    congr 2
    exact countP_congr fun x hx => by rw [hfg x hx]

theorem dropLoop_eq (hit : LinksRec → Bool) (l : List LinksRec) (strong : ℤ) :
    dropLoop hit l strong = (l.filter fun r => !hit r,
      strong - (l.countP fun r => hit r && r.hasRef : ℕ)) := by
  induction l with
  | nil => simp [dropLoop]
  | cons r rest ih =>
    unfold dropLoop
    rw [ih]
    cases hh : hit r
    · simp [hh]
    · cases hr : r.hasRef
      · simp [hh, hr]
      · simp [hh, hr]
        omega

/-- The links that are not of a key. -/
def apart (s : Links) (key : List ℤ) : List (Option (List ℤ) × LinksRec) :=
  (s.links.remove key).entries.map (fun e => (some e.1, e.2)) ++ s.otherLinks.map (none, ·)

theorem linked_perm (s : Links) (key : List ℤ) :
    s.linked.Perm (((s.links.valueFor key).getD []).map (some key, ·) ++ s.apart key) := by
  unfold linked apart
  rw [← append_assoc]
  refine List.Perm.append_right _ ?_
  refine ((s.links.perm_entries key).map _).trans ?_
  rw [map_append, map_map]
  rfl

theorem linked_add_perm (s : Links) (key : List ℤ) (l : List LinksRec) (strong : ℤ) :
    (Links.mk (s.links.add key l) s.otherLinks strong).linked.Perm
      (l.map (some key, ·) ++ s.apart key) := by
  unfold linked apart
  rw [← append_assoc]
  refine List.Perm.append_right _ ?_
  refine ((s.links.entries_add key l).map _).trans ?_
  rw [map_append, map_map]
  rfl

theorem fst_ne_of_mem {key : List ℤ} {x : Option (List ℤ) × LinksRec} (h : x ∈ s.apart key) :
    x.1 ≠ some key := by
  rcases mem_append.1 h with h | h
  · obtain ⟨e, he, rfl⟩ := mem_map.1 h
    intro heq
    exact Keyed.ne_of_mem_remove he (Option.some.inj heq)
  · obtain ⟨r, -, rfl⟩ := mem_map.1 h
    exact nofun

theorem dropUnder_drops (hit : LinksRec → Bool) (key : List ℤ) (s : Links) :
    Drops (fun x => decide (x.1 = some key) && hit x.2) s (s.dropUnder hit key) := by
  have hperm := linked_perm s key
  have hothers : ∀ x ∈ s.apart key, (decide (x.1 = some key) && hit x.2) = false := by
    intro x hx
    rw [decide_eq_false (fst_ne_of_mem hx), Bool.false_and]
  have hunder : ∀ l : List LinksRec, (l.map (some key, ·)).filter
      (fun x : Option (List ℤ) × LinksRec => !(decide (x.1 = some key) && hit x.2)) =
        (l.filter fun r => !hit r).map (some key, ·) := by
    intro l
    rw [filter_map]
    congr 1
    exact filter_congr fun r _ => by simp
  have hrest : (s.apart key).filter (fun x => !(decide (x.1 = some key) && hit x.2)) =
      s.apart key := by
    refine filter_eq_self.2 fun x hx => ?_
    rw [hothers x hx]
    rfl
  cases hv : s.links.valueFor key with
  | none =>
    rw [hv] at hperm
    have hnone : ∀ x ∈ s.linked, (false : Bool) = (decide (x.1 = some key) && hit x.2) :=
      fun x hx => (hothers x (hperm.mem_iff.1 hx)).symm
    have hsame : s.dropUnder hit key = s := by
      unfold dropUnder
      rw [hv]
    rw [hsame]
    exact (Drops.refl s).congr hnone
  | some l =>
    rw [hv, Option.getD_some] at hperm
    unfold dropUnder
    rw [hv]
    simp only [dropLoop_eq]
    constructor
    · refine List.Perm.trans ?_ (hperm.filter _).symm
      rw [filter_append, hunder, hrest]
      cases hempty : (l.filter fun r => !hit r).isEmpty with
      | true =>
        rw [if_pos rfl, isEmpty_iff.1 hempty]
        exact .refl _
      | false =>
        rw [if_neg (by simp)]
        exact linked_add_perm s key _ _
    · rw [hperm.countP_eq, countP_append, countP_map]
      have hzero : (s.apart key).countP (fun x =>
          decide (x.1 = some key) && hit x.2 && x.2.hasRef) = 0 := by
        rw [countP_eq_zero]
        intro x hx
        rw [hothers x hx]
        simp
      have hcount : l.countP (fun r => hit r && r.hasRef) =
          l.countP ((fun x : Option (List ℤ) × LinksRec =>
            decide (x.1 = some key) && hit x.2 && x.2.hasRef) ∘ (some key, ·)) :=
        countP_congr fun r _ => by simp
      rw [hzero, hcount, add_zero]

theorem dropOthers_drops (hit : LinksRec → Bool) (s : Links) :
    Drops (fun x => decide (x.1 = none) && hit x.2) s (s.dropOthers hit) := by
  obtain ⟨keyed, hkeyed, hlinked⟩ : ∃ keyed : List (Option (List ℤ) × LinksRec),
      (∀ x ∈ keyed, (decide (x.1 = none) && hit x.2) = false) ∧
        ∀ others strong, (Links.mk s.links others strong).linked = keyed ++ others.map (none, ·) := by
    refine ⟨s.links.entries.map fun e => (some e.1, e.2), fun x hx => ?_, fun _ _ => rfl⟩
    obtain ⟨e, -, rfl⟩ := mem_map.1 hx
    rfl
  have hs : s.linked = keyed ++ s.otherLinks.map (none, ·) := hlinked s.otherLinks s.strong
  have hkeep : keyed.filter (fun x => !(decide (x.1 = none) && hit x.2)) = keyed := by
    refine filter_eq_self.2 fun x hx => ?_
    rw [hkeyed x hx]
    rfl
  have hzero : keyed.countP (fun x => decide (x.1 = none) && hit x.2 && x.2.hasRef) = 0 := by
    rw [countP_eq_zero]
    intro x hx
    rw [hkeyed x hx]
    simp
  unfold dropOthers
  simp only [dropLoop_eq]
  constructor
  · rw [hlinked, hs, filter_append, hkeep, filter_map]
    exact List.Perm.refl _
  · rw [hs, countP_append, countP_map, hzero, zero_add]
    rfl

theorem foldl_dropUnder {α : Type} (hit : α → LinksRec → Bool) (key : α → List ℤ) (l : List α) :
    ∀ s : Links, Drops (fun x => l.any fun a => decide (x.1 = some (key a)) && hit a x.2) s
      (l.foldl (fun s a => s.dropUnder (hit a) (key a)) s) := by
  induction l with
  | nil => exact Drops.refl
  | cons a rest ih =>
    intro s
    refine ((dropUnder_drops (hit a) (key a) s).trans (ih _)).congr fun x _ => ?_
    rw [any_cons]

theorem unlink_drops {binding : SValue} (s : Links) (hflags : flags &&& unlinkAllTargets = 0)
    (hb : binding.isWild = true ∨ ∀ p ∈ binding.items, p.1.isSimple = true) :
    ∃ s', s.unlink node binding flags = some s' ∧ Drops (hits node binding flags) s s' := by
  unfold unlink hits
  rw [if_neg (by simpa using hflags)]
  by_cases hw : binding.isWild = true
  · simp only [if_pos hw]
    exact ⟨_, rfl, dropOthers_drops _ s⟩
  · have hall : (binding.items.all fun p => p.1.isSimple) = true :=
      all_eq_true.2 (hb.resolve_left hw)
    simp only [if_neg hw, if_pos hall]
    exact ⟨_, rfl, foldl_dropUnder
      (fun (p : SValue.Pair) link => link.isOf node flags p.2) (fun p => p.1.code) _ s⟩

theorem unlink_drops_all {binding : SValue} (s : Links) (hflags : flags &&& unlinkAllTargets ≠ 0) :
    ∃ s', s.unlink node binding flags = some s' ∧
      Drops (fun x => decide (node = x.2.target)) s s' := by
  unfold unlink
  rw [if_pos (by simpa using hflags)]
  refine ⟨_, rfl, ?_⟩
  let hit := fun link : LinksRec => decide (node = link.target)
  have hkeys := foldl_dropUnder (fun _ => hit) id (s.links.items.map Prod.fst).reverse s
  rw [foldl_reverse] at hkeys
  refine (hkeys.trans (dropOthers_drops hit _)).congr fun x hx => ?_
  rcases mem_append.1 hx with hx | hx
  · -- its key is among the keys
    obtain ⟨e, he, rfl⟩ := mem_map.1 hx
    obtain ⟨l, hl, -⟩ := Keyed.mem_entries.1 he
    rw [Bool.eq_iff_iff]
    simp only [any_reverse, any_map, Bool.or_eq_true, any_eq_true, hit]
    constructor
    · rintro (⟨p, -, hp⟩ | hp)
      · exact (Bool.and_eq_true_iff.1 hp).2
      · exact (Bool.and_eq_true_iff.1 hp).2
    · intro h
      exact .inl ⟨(e.1, l), hl, by simpa using h⟩
  · obtain ⟨r, -, rfl⟩ := mem_map.1 hx
    simp [hit]

/-! ### Links that are added -/

/-- **Links are added**, with the references for them. -/
structure Adds (made : List (Option (List ℤ) × LinksRec)) (s s' : Links) : Prop where
  linked : s'.linked.Perm (s.linked ++ made)
  strong : s'.strong = s.strong + (made.countP fun x => x.2.hasRef : ℕ)

theorem Adds.refl (s : Links) : Adds [] s s where
  linked := by simp
  strong := by simp

theorem Adds.trans {made made' : List (Option (List ℤ) × LinksRec)} {s'' : Links}
    (h : Adds made s s') (h' : Adds made' s' s'') : Adds (made ++ made') s s'' where
  linked := by
    rw [← append_assoc]
    exact h'.linked.trans (h.linked.append_right made')
  strong := by
    rw [h'.strong, h.strong, countP_append]
    omega

theorem made_hasRef {number : ℕ} {value : SValue} (hflags : flags &&& ~~~7#32 = 0) :
    (made holdRefForLink node flags number senderKey value).hasRef =
      holdRefForLink senderKey flags := hasRef_finalFlags hflags

theorem settle_hold {s s' : Links} (ok : Bool) (hflags : flags &&& ~~~7#32 = 0)
    (hs : s'.strong = (s.hold holdRefForLink senderKey flags).strong) :
    (s'.settle ok (finalFlags holdRefForLink senderKey flags)).strong =
      s.strong + if ok && holdRefForLink senderKey flags then 1 else 0 := by
  have href := @hasRef_finalFlags holdRefForLink senderKey flags hflags
  unfold settle
  unfold hold at hs
  rw [href]
  cases hold : holdRefForLink senderKey flags <;> cases ok <;> simp [hold] at hs ⊢ <;> omega

theorem settle_linked (s : Links) (ok : Bool) (flags : BitVec 32) :
    (s.settle ok flags).linked = s.linked ∧ (s.settle ok flags).links = s.links := by
  unfold settle
  split
  · exact ⟨rfl, rfl⟩
  · exact ⟨rfl, rfl⟩

theorem hold_linked (s : Links) :
    (s.hold holdRefForLink senderKey flags).linked = s.linked ∧
      (s.hold holdRefForLink senderKey flags).links = s.links ∧
        (s.hold holdRefForLink senderKey flags).otherLinks = s.otherLinks := by
  unfold hold
  split
  · exact ⟨rfl, rfl, rfl⟩
  · exact ⟨rfl, rfl, rfl⟩

variable (holdRefForLink) in
/-- **An item that is linked**, where its key is there or there is memory for it. -/
theorem linkItem_adds (node number : ℕ) {memory : Bool × Bool} {t : Linking} (targetKey : SValue)
    (hsimple : senderKey.isSimple = true) (hflags : flags &&& ~~~7#32 = 0)
    (hkey : memory.1 = true ∨ (t.links.links.valueFor senderKey.code).isSome) :
    ∃ t', linkItem holdRefForLink node flags number memory t senderKey targetKey = some t' ∧
      Adds (if memory.2 then
        [(some senderKey.code, made holdRefForLink node flags number senderKey targetKey)] else [])
          t.links t'.links ∧
      t'.locked = t.locked ∧ t'.remnants = t.remnants ∧
      t'.result = (if memory.2 then 0 else noMemory) ∧
      ∀ code, (t'.links.links.valueFor code).isSome =
        (decide (code = senderKey.code) || (t.links.links.valueFor code).isSome) := by
  obtain ⟨hl, hlinks, hothers⟩ := @hold_linked holdRefForLink senderKey flags t.links
  have hcond : ¬ ((t.links.links.valueFor senderKey.code).isNone && !memory.1) = true := by
    rcases hkey with hkey | hkey
    · simp [hkey]
    · rw [← Option.not_isSome, hkey]
      simp
  unfold linkItem
  rw [if_pos hsimple]
  simp only [hlinks]
  rw [if_neg hcond]
  refine ⟨_, rfl, ⟨?_, ?_⟩, rfl, rfl, rfl, ?_⟩
  · rw [(settle_linked _ _ _).1, hothers]
    refine (linked_add_perm t.links _ _ _).trans ?_
    refine List.Perm.trans ?_ ((linked_perm t.links senderKey.code).symm.append_right _)
    cases memory.2 with
    | true =>
      simp only [if_true, map_append, append_assoc]
      exact List.Perm.append_left _ perm_append_comm
    | false => simp
  · let added := t.links.links.add senderKey.code (if memory.2 then
      (t.links.links.valueFor senderKey.code).getD [] ++
        [made holdRefForLink node flags number senderKey targetKey]
      else (t.links.links.valueFor senderKey.code).getD [])
    refine (@settle_hold holdRefForLink senderKey flags t.links
      { t.links.hold holdRefForLink senderKey flags with links := added } memory.2 hflags
        rfl).trans ?_
    cases memory.2 with
    | true => simp [countP_cons, made_hasRef hflags]
    | false => simp
  · intro code
    rw [(settle_linked _ _ _).2, Keyed.valueFor_add]
    by_cases hc : code = senderKey.code
    · simp [hc]
    · simp [hc]

variable (holdRefForLink) in
theorem linkLoop_adds (node number : ℕ) {memory : ℕ → Bool × Bool}
    (hflags : flags &&& ~~~7#32 = 0) (items : List SValue.Pair) :
    ∀ (i : ℕ) (t : Linking), (∀ p ∈ items, p.1.isSimple = true) → t.locked = false →
      KeysOk t.links.links i items memory → ∃ t' new,
        linkLoop holdRefForLink node flags number memory i items t = some t' ∧
          t'.locked = false ∧ t'.remnants = t.remnants ∧ Adds new t.links t'.links ∧
          new.Sublist (items.map fun p =>
            (some p.1.code, made holdRefForLink node flags number p.1 p.2)) ∧
          ((∀ k < items.length, (memory (i + k)).2 = true) → new = items.map fun p =>
            (some p.1.code, made holdRefForLink node flags number p.1 p.2)) ∧
          (items ≠ [] → t'.result = if (memory (i + (items.length - 1))).2 then 0 else noMemory) := by
  induction items with
  | nil =>
    intro i t _ hlocked _
    exact ⟨t, [], rfl, hlocked, rfl, .refl _, .slnil, fun _ => rfl, fun h => absurd rfl h⟩
  | cons p rest ih =>
    intro i t hsimple hlocked hkeys
    have hkey : (memory i).1 = true ∨ (t.links.links.valueFor p.1.code).isSome := by
      rcases hkeys 0 p rfl with h | h | ⟨j, _, hj, -⟩
      · exact .inl h
      · exact .inr h
      · exact absurd hj (Nat.not_lt_zero j)
    obtain ⟨t₁, h1, hadds, hlocked₁, hremnants, hresult, hhas⟩ := linkItem_adds
      holdRefForLink node number p.2 (hsimple p mem_cons_self) hflags hkey
    -- the keys of the rest are as new as before, or that of the first item
    have hkeys₁ : KeysOk t₁.links.links (i + 1) rest memory := by
      intro k q hq
      have hmem := hkeys (k + 1) q hq
      rw [show i + (k + 1) = i + 1 + k by omega] at hmem
      rcases hmem with h | h | ⟨j, r, hj, hr, hcode⟩
      · exact .inl h
      · exact .inr (.inl (by rw [hhas, h, Bool.or_true]))
      · cases j with
        | zero =>
          obtain ⟨⟩ := hr
          exact .inr (.inl (by rw [hhas, hcode]; simp))
        | succ j => exact .inr (.inr ⟨j, r, by omega, hr, hcode⟩)
    obtain ⟨t', new, h2, hlocked', hremnants', hadds', hsub, hall, hlast⟩ := ih (i + 1) t₁
      (fun q hq => hsimple q (mem_cons_of_mem _ hq)) (by rw [hlocked₁, hlocked]) hkeys₁
    refine ⟨t', _, ?_, hlocked', hremnants'.trans hremnants, hadds.trans hadds', ?_, ?_, ?_⟩
    · rw [linkLoop, h1]
      simp only [Option.bind_eq_bind, Option.bind_some]
      rw [if_neg (by rw [hlocked₁, hlocked]; simp), h2]
    · rw [map_cons]
      cases (memory i).2 with
      | true => exact hsub.cons_cons _
      | false => exact hsub.cons _
    · intro hmem
      rw [hall fun k hk => by
        rw [show i + 1 + k = i + (k + 1) by omega]
        exact hmem (k + 1) (by simpa using hk)]
      have h0 : (memory i).2 = true := hmem 0 (by simp)
      rw [h0]
      rfl
    · intro _
      cases rest with
      | nil =>
        rw [linkLoop] at h2
        obtain ⟨⟩ := h2
        exact hresult
      | cons q rest =>
        rw [hlast (by simp)]
        simp only [length_cons, Nat.add_sub_cancel]
        rw [show i + 1 + rest.length = i + (rest.length + 1) by omega]

theorem linkOther_adds {number : ℕ} {recOk : Bool} {t : Linking} {value : SValue}
    (hflags : flags &&& ~~~7#32 = 0) :
    Adds (if recOk then [(none, made holdRefForLink node flags number .undefined value)] else [])
      t.links (linkOther holdRefForLink node flags number recOk t value).links := by
  obtain ⟨-, hlinks, hothers⟩ := @hold_linked holdRefForLink .undefined flags t.links
  constructor
  · unfold linkOther
    rw [(settle_linked _ _ _).1, hothers, hlinks]
    cases recOk with
    | true =>
      simp only [if_true]
      unfold linked
      rw [map_append, append_assoc]
      exact List.Perm.refl _
    | false => simp [linked]
  · let held := t.links.hold holdRefForLink .undefined flags
    let others := if recOk then
      held.otherLinks ++ [made holdRefForLink node flags number .undefined value]
      else held.otherLinks
    refine (@settle_hold holdRefForLink .undefined flags t.links
      { held with otherLinks := others } recOk hflags rfl).trans ?_
    cases recOk with
    | true => simp [countP_cons, made_hasRef hflags]
    | false => simp

theorem link_adds {node number : ℕ} {binding : SValue} {memory : ℕ → Bool × Bool} (s : Links)
    (hb : binding.isWild = true ∨ ∀ p ∈ binding.items, p.1.isSimple = true)
    (hflags : flags &&& ~~~7#32 = 0)
    (hok : binding.isWild = true ∨ KeysOk s.links 0 binding.items memory ∧
      ((∀ i < binding.items.length, (memory i).2 = true) ∨
        (memory (binding.items.length - 1)).2 = false)) :
    ∃ t new, s.link holdRefForLink node binding flags number memory = some t ∧
      t.locked = false ∧ Adds new s t.links ∧
      new.Sublist (asked holdRefForLink node binding flags number) ∧
      (t.result = 0 → new = asked holdRefForLink node binding flags number) := by
  unfold link asked
  by_cases hw : binding.isWild = true
  · simp only [if_pos hw]
    refine ⟨_, _, rfl, rfl, linkOther_adds (t := ⟨s, false, 0, .undefined⟩) hflags, ?_, ?_⟩
    · cases (memory 0).2 with
      | true => exact List.Sublist.refl _
      | false => exact nil_sublist _
    · intro hresult
      cases hm : (memory 0).2 with
      | true => rfl
      | false =>
        have hfail : noMemory = 0 := by simpa [linkOther, hm] using hresult
        exact absurd hfail (by decide)
  · obtain ⟨hkeys, hreport⟩ := hok.resolve_left hw
    obtain ⟨t, new, hloop, hlocked, hremnants, hadds, hsub, hall, hlast⟩ := linkLoop_adds
      holdRefForLink node number hflags binding.items 0 ⟨s, false, 0, .undefined⟩
      (hb.resolve_left hw) rfl hkeys
    simp only [if_neg hw, hloop, Option.bind_eq_bind, Option.bind_some]
    have hundefined : ¬ (t.remnants.isDefined && !t.locked) = true := by
      rw [hremnants]
      simp [SValue.isDefined, SValue.undefined, SValue.mType]
    rw [if_neg hundefined]
    refine ⟨t, new, rfl, hlocked, hadds, hsub, fun hresult => ?_⟩
    simp only [Nat.zero_add] at hall hlast
    rcases hreport with hmem | hmem
    · exact hall hmem
    · -- a failure of the last item is the result
      by_cases hnil : binding.items = []
      · exact hall (by rw [hnil]; simp)
      · have hfail := hlast hnil
        rw [hmem, hresult] at hfail
        exact absurd hfail (by decide)

end Links

end OpenBinder
