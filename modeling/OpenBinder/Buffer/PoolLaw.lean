import OpenBinder.Buffer.SharedBuffer

/-!
# The pool is exact

* `SlotOk`: what can be at an address, by what becomes of it: nothing, a static buffer, a buffer
  that is about to be freed, or one that lives, with a user for each reference.
* `Inv.modify`: a step that changes what is at one address only has to keep `SlotOk` there.
* `Inv.step`: every step that observes keeps the invariant.
* `exact_of_observes`: in every run of such steps the pool is exact in every state.
-/

namespace OpenBinder

open Lib Function BitVec
open Multiset hiding count

namespace SSharedBuffer

/-! ### The order of the pool -/

instance : Std.TransCmp compare :=
  inferInstanceAs (Std.TransCmp (compareLex (compareOn List.length)
    (List.compareLex (compareOn BitVec.toNat))))

instance : Std.LawfulEqCmp (compareOn (α := Byte) BitVec.toNat) where
  eq_of_compare := by
    intro a b h
    exact eq_of_toNat_eq (Nat.compare_eq_eq.1 h)

instance : Std.LawfulEqCmp compare where
  eq_of_compare := by
    intro a b h
    exact Std.LawfulEqCmp.eq_of_compare (compareLex_eq_eq.1 h).2

/-! ### User counts -/

/-- The user count of a buffer that is not static. -/
def word (n : ℕ) (pooled : Bool) : BitVec 32 :=
  BitVec.ofNat 32 (2 ^ usersShift * n + if pooled then 2 else 0)

variable {n : ℕ} {p : Bool}

theorem toNat_word (h : n < 2 ^ 28) :
    (word n p).toNat = 2 ^ usersShift * n + if p then 2 else 0 := by
  unfold word usersShift
  rw [toNat_ofNat]
  apply Nat.mod_eq_of_lt
  split <;> omega

theorem and_three (users : BitVec 32) : (users &&& 3).toNat = users.toNat % 4 := by
  rw [toNat_and]
  exact Nat.and_two_pow_sub_one_eq_mod users.toNat 2

theorem word_and_three (h : n < 2 ^ 28) : word n p &&& 3 = if p then 2 else 0 := by
  apply eq_of_toNat_eq
  rw [and_three, toNat_word h]
  unfold usersShift
  cases p <;> simp <;> omega

theorem not_isStatic_word (h : n < 2 ^ 28) : ¬ IsStatic (word n p) := by
  unfold IsStatic staticUsers
  have h3 : word n p &&& 1 = (word n p &&& 3) &&& 1 := by
    rw [BitVec.and_assoc]; rfl
  rw [h3, word_and_three h]
  cases p <;> decide

theorem isPooled_word (h : n < 2 ^ 28) : IsPooled (word n p) ↔ p = true := by
  unfold IsPooled pooledUsers
  have h3 : word n p &&& 2 = (word n p &&& 3) &&& 2 := by
    rw [BitVec.and_assoc]; rfl
  rw [h3, word_and_three h]
  cases p <;> decide

theorem word_add_oneUser : word n p + oneUser = word (n + 1) p := by
  unfold word oneUser usersShift
  apply eq_of_toNat_eq
  simp [toNat_add]
  omega

theorem word_sub_oneUser : word (n + 1) p - oneUser = word n p := by
  rw [← word_add_oneUser, add_sub_cancel]

theorem word_or_pooledUsers (h : n < 2 ^ 28) : word n p ||| pooledUsers = word n true := by
  apply eq_of_toNat_eq
  rw [toNat_or, toNat_word h, toNat_word h, if_pos rfl,
    Nat.two_pow_add_eq_or_of_lt (by decide : 2 < 2 ^ usersShift)]
  have h2 : pooledUsers.toNat = 2 := rfl
  rw [h2]
  cases p with
  | true =>
    rw [if_pos rfl, Nat.two_pow_add_eq_or_of_lt (by decide : 2 < 2 ^ usersShift), Nat.or_assoc,
      Nat.or_self]
  | false => rw [if_neg (by decide), Nat.add_zero]

theorem word_eq_oneUser (h : n < 2 ^ 28) : word n p = oneUser ↔ n = 1 ∧ p = false := by
  rw [← toNat_inj, toNat_word h]
  unfold oneUser usersShift
  cases p <;> simp <;> omega

theorem count_word (h : n < 2 ^ 28) {k : ℕ} (hk : k < 2) :
    count (word n p) = BitVec.ofNat 32 k ↔ n = k := by
  have hword : (word n p).toNat / 2 ^ 4 = n := by
    rw [toNat_word h]
    unfold usersShift
    split <;> omega
  unfold count
  rw [← toInt_inj, toInt_sshiftRight, Int.shiftRight_eq_div_pow, toInt_eq_toNat_cond,
    toInt_eq_toNat_cond, toNat_ofNat]
  unfold usersShift
  split <;> split <;> omega

theorem staticUsers_isStatic : IsStatic staticUsers := by decide

/-! ### What can be at an address -/

/-- The references that calls have. -/
def uses (cs : Multiset Call) : ℕ := (cs.map Call.refs).sum

@[simp] theorem uses_cons (c : Call) (cs : Multiset Call) : uses (c ::ₘ cs) = c.refs + uses cs := by
  simp [uses]

/-- A call at a static buffer. -/
def Call.FitsStatic : Call → Prop
  | .poolLocked => False
  | .decUsers (.decrement users) => IsStatic users
  | .decUsers .unpool | .decUsers .doDelete => False
  | _ => True

/-- A call at a buffer that lives, with the flag of the pool or without. -/
def Call.FitsLive (pooled : Bool) : Call → Prop
  | .decUsers (.decrement users) => ¬ IsStatic users ∧ (IsPooled users → pooled = true)
  | .decUsers .unpool => pooled = true
  | .decUsers .doDelete => False
  | _ => True

/-- A buffer that lives has `n` users, one for each reference; when it has none, it is about to be
taken out of the pool. -/
structure LiveOk (inPool : Prop) (n : ℕ) (pooled : Bool) (refs : ℕ) (calls : Multiset Call) :
    Prop where
  room : n < 2 ^ 28
  users : n = refs + uses calls
  pool : inPool ↔ pooled = true
  fits : ∀ c ∈ calls, c.FitsLive pooled
  unused : n = 0 → .decUsers .unpool ∈ calls

/-- **What can be at an address.** -/
inductive SlotOk (inPool : Prop) : Slot → Prop where
  | free (h : ¬ inPool) : SlotOk inPool ⟨none, 0, 0⟩
  | static {data : List Byte} {refs : ℕ} {calls : Multiset Call} (h : ¬ inPool)
      (hfits : ∀ c ∈ calls, c.FitsStatic) :
      SlotOk inPool ⟨some ⟨staticUsers, false, data⟩, refs, calls⟩
  | dying {x : SSharedBuffer} (h : ¬ inPool) (hx : ¬ IsStatic x.users) :
      SlotOk inPool ⟨some x, 0, {.decUsers .doDelete}⟩
  | live {n : ℕ} {pooled extended : Bool} {data : List Byte} {refs : ℕ} {calls : Multiset Call}
      (h : LiveOk inPool n pooled refs calls) :
      SlotOk inPool ⟨some ⟨word n pooled, extended, data⟩, refs, calls⟩

section LiveOk

variable {inPool : Prop} {refs : ℕ} {c c' : Call} {calls : Multiset Call}

theorem LiveOk.give (h : LiveOk inPool n p refs (c ::ₘ calls)) (hc : c.refs = 1) :
    LiveOk inPool n p (refs + 1) calls where
  room := h.room
  users := by
    have := h.users
    rw [uses_cons, hc] at this
    omega
  pool := h.pool
  fits d hd := h.fits d (mem_cons_of_mem hd)
  unused h0 := by
    have := h.users
    rw [uses_cons, hc] at this
    omega

theorem LiveOk.add (h : LiveOk inPool n p refs calls) (hroom : n + 1 < 2 ^ 28) :
    LiveOk inPool (n + 1) p (refs + 1) calls where
  room := hroom
  users := by
    have := h.users
    omega
  pool := h.pool
  fits := h.fits
  unused h0 := by omega

theorem LiveOk.begin (h : LiveOk inPool n p refs calls) (hr : 0 < refs) (hc : c.refs = 1)
    (hfits : c.FitsLive p) : LiveOk inPool n p (refs - 1) (c ::ₘ calls) where
  room := h.room
  users := by
    have := h.users
    rw [uses_cons, hc]
    omega
  pool := h.pool
  fits d hd := by
    rcases mem_cons.1 hd with rfl | hd
    · exact hfits
    · exact h.fits d hd
  unused h0 := mem_cons_of_mem (h.unused h0)

theorem LiveOk.next (h : LiveOk inPool n p refs (c ::ₘ calls)) (hc : c.refs = 1) (hc' : c'.refs = 1)
    (hfits : c'.FitsLive p) : LiveOk inPool n p refs (c' ::ₘ calls) :=
  (h.give hc).begin (Nat.succ_pos refs) hc' hfits

theorem LiveOk.sub (h : LiveOk inPool (n + 1) p refs (c ::ₘ calls)) (hc : c.refs = 1) (hn : n ≠ 0) :
    LiveOk inPool n p refs calls where
  room := by
    have := h.room
    omega
  users := by
    have := h.users
    rw [uses_cons, hc] at this
    omega
  pool := h.pool
  fits d hd := h.fits d (mem_cons_of_mem hd)
  unused h0 := absurd h0 hn

theorem LiveOk.sub_last (h : LiveOk inPool 1 true refs (c ::ₘ calls)) (hc : c.refs = 1) :
    LiveOk inPool 0 true refs (.decUsers .unpool ::ₘ calls) where
  room := by decide
  users := by
    have := h.users
    rw [uses_cons, hc] at this
    rw [uses_cons]
    show 0 = refs + (0 + uses calls)
    omega
  pool := h.pool
  fits d hd := by
    rcases mem_cons.1 hd with rfl | hd
    · rfl
    · exact h.fits d (mem_cons_of_mem hd)
  unused _ := mem_cons_self _ _

theorem LiveOk.keep (h : LiveOk inPool n p refs (.decUsers .unpool ::ₘ calls)) (hn : n ≠ 0) :
    LiveOk inPool n p refs calls where
  room := h.room
  users := by
    have := h.users
    rw [uses_cons] at this
    exact this.trans (by rw [Call.refs, Nat.zero_add])
  pool := h.pool
  fits d hd := h.fits d (mem_cons_of_mem hd)
  unused h0 := absurd h0 hn

/-- Calls without references at a buffer that lives are about to take it out of the pool. -/
theorem eq_zero_of_uses (huses : uses calls = 0) (hfits : ∀ d ∈ calls, d.FitsLive p)
    (hun : .decUsers .unpool ∉ calls) : calls = 0 := by
  apply eq_zero_of_forall_notMem
  intro d hd
  obtain ⟨rest, rfl⟩ := exists_cons_of_mem hd
  rw [uses_cons] at huses
  have hrefs : d.refs = 0 := by omega
  have hd' := hfits d hd
  cases d with
  | pool => exact absurd hrefs (by decide)
  | poolLocked => exact absurd hrefs (by decide)
  | decUsers pc =>
    cases pc with
    | read => exact absurd hrefs (by decide)
    | decrement users => exact absurd hrefs Nat.one_ne_zero
    | unpool => exact hun hd
    | doDelete => exact hd'

/-- **The last of the references**: if a buffer is not in the pool nobody else is at it. -/
theorem LiveOk.alone (h : LiveOk inPool 1 false refs (c ::ₘ calls)) (hc : c.refs = 1) :
    refs = 0 ∧ calls = 0 := by
  have hu := h.users
  rw [uses_cons, hc] at hu
  refine ⟨by omega, eq_zero_of_uses (p := false) (by omega) (fun d hd =>
    h.fits d (mem_cons_of_mem hd)) fun hun => ?_⟩
  exact absurd (h.fits _ (mem_cons_of_mem hun)) (by unfold Call.FitsLive; decide)

/-- The same of a buffer in the pool that has no users, if one call is about to take it out. -/
theorem LiveOk.alone_unpool (h : LiveOk inPool 0 p refs (.decUsers .unpool ::ₘ calls))
    (hone : (.decUsers .unpool ::ₘ calls).count (.decUsers .unpool) = 1) :
    refs = 0 ∧ calls = 0 := by
  have hu := h.users
  rw [uses_cons] at hu
  rw [count_cons_self] at hone
  refine ⟨by omega, eq_zero_of_uses (p := p) (by omega) (fun d hd =>
    h.fits d (mem_cons_of_mem hd)) ?_⟩
  exact count_eq_zero.1 (by omega)

end LiveOk

section SlotOk

variable {inPool : Prop} {x : Option SSharedBuffer} {refs : ℕ} {c : Call} {calls : Multiset Call}

theorem SlotOk.of_refs (h : SlotOk inPool ⟨x, refs, c ::ₘ calls⟩) (hc : c.refs = 1) :
    (∃ data, x = some ⟨staticUsers, false, data⟩ ∧ ¬ inPool ∧
        ∀ d ∈ c ::ₘ calls, d.FitsStatic) ∨
      ∃ n p e data, x = some ⟨word (n + 1) p, e, data⟩ ∧
        LiveOk inPool (n + 1) p refs (c ::ₘ calls) := by
  generalize hcs : c ::ₘ calls = cs at h
  cases h with
  | free h => exact absurd hcs cons_ne_zero
  | static hp hfits =>
    left
    exact ⟨_, rfl, hp, hfits⟩
  | dying hp hx =>
    have hmem : c ∈ ({.decUsers .doDelete} : Multiset Call) := by
      rw [← hcs]
      exact mem_cons_self c calls
    rw [mem_singleton.1 hmem] at hc
    exact absurd hc (by decide)
  | @live n p e data refs cs hlive =>
    right
    have hu := hlive.users
    rw [← hcs, uses_cons, hc] at hu
    obtain ⟨m, rfl⟩ : ∃ m, n = m + 1 := ⟨n - 1, by omega⟩
    exact ⟨m, p, e, data, rfl, hlive⟩

theorem SlotOk.of_unpool (h : SlotOk inPool ⟨x, refs, .decUsers .unpool ::ₘ calls⟩) :
    ∃ n e data, x = some ⟨word n true, e, data⟩ ∧
      LiveOk inPool n true refs (.decUsers .unpool ::ₘ calls) := by
  generalize hcs : Call.decUsers .unpool ::ₘ calls = cs at h
  have hmem : Call.decUsers .unpool ∈ cs := by
    rw [← hcs]
    exact mem_cons_self _ calls
  cases h with
  | free h => exact absurd hcs cons_ne_zero
  | static hp hfits => exact (hfits _ hmem).elim
  | dying hp hx => exact absurd (mem_singleton.1 hmem) (by decide)
  | @live n p e data refs cs hlive =>
    obtain rfl : p = true := hlive.fits _ hmem
    exact ⟨n, e, data, rfl, hlive⟩

theorem SlotOk.of_doDelete (h : SlotOk inPool ⟨x, refs, .decUsers .doDelete ::ₘ calls⟩) :
    ∃ y, x = some y ∧ ¬ inPool ∧ ¬ IsStatic y.users ∧ refs = 0 ∧ calls = 0 := by
  generalize hcs : Call.decUsers .doDelete ::ₘ calls = cs at h
  have hmem : Call.decUsers .doDelete ∈ cs := by
    rw [← hcs]
    exact mem_cons_self _ calls
  cases h with
  | free h => exact absurd hcs cons_ne_zero
  | static hp hfits => exact (hfits _ hmem).elim
  | @dying y hp hx =>
    have hcard := congrArg Multiset.card hcs
    rw [card_cons, card_singleton] at hcard
    exact ⟨y, rfl, hp, hx, rfl, card_eq_zero.1 (by omega)⟩
  | live hlive => exact (hlive.fits _ hmem).elim

end SlotOk

end SSharedBuffer

namespace SharedBuffers

open SSharedBuffer

/-- **The invariant.** -/
structure Inv (s : SharedBuffers) : Prop where
  slot : ∀ b, SlotOk (b ∈ s.pool) (s.slots b)
  sorted : Table compare s.data s.pool
  unfaulted : s.faulted = false

variable {s : SharedBuffers} {b : ℕ}

/-! ### What a step leaves alone -/

@[simp] theorem modify_slots_self (f : Slot → Slot) : (s.modify b f).slots b = f (s.slots b) := by
  simp [modify]

theorem modify_slots_ne (f : Slot → Slot) {a : ℕ} (h : a ≠ b) :
    (s.modify b f).slots a = s.slots a := update_of_ne h _ _

theorem modify_modify (f g : Slot → Slot) :
    (s.modify b f).modify b g = s.modify b fun v => g (f v) := by
  simp [modify]

theorem modify_comm {a : ℕ} (h : a ≠ b) (f g : Slot → Slot) :
    (s.modify a f).modify b g = (s.modify b g).modify a f := by
  unfold modify
  dsimp only
  rw [update_of_ne h.symm, update_of_ne h, update_comm h]

/-- The data at an address. -/
def dataOf (v : Slot) : List Byte :=
  match v.buffer with
  | some x => x.data
  | none => []

theorem data_eq (s : SharedBuffers) (a : ℕ) : s.data a = dataOf (s.slots a) := rfl

variable {s' : SharedBuffers}

theorem Inv.of_others (h : s.Inv) (hslot : SlotOk (b ∈ s'.pool) (s'.slots b))
    (hothers : ∀ a, a ≠ b → s'.slots a = s.slots a ∧ (a ∈ s'.pool ↔ a ∈ s.pool))
    (hsorted : Table compare s'.data s'.pool) (hfault : s'.faulted = false) : s'.Inv where
  slot a := by
    by_cases hab : a = b
    · subst hab
      exact hslot
    · obtain ⟨h1, h2⟩ := hothers a hab
      rw [h1, h2]
      exact h.slot a
  sorted := hsorted
  unfaulted := hfault

theorem sorted_of_data {l : List ℕ} (h : Table compare s.data l)
    (hdata : ∀ a ∈ l, s'.data a = s.data a) : Table compare s'.data l := by
  refine List.Pairwise.imp_of_mem (fun ha ha' hlt => ?_) h
  rw [hdata _ ha, hdata _ ha']
  exact hlt

/-- **A step at one address** has to keep what can be there, and the data if that is in the pool. -/
theorem Inv.modify {f : Slot → Slot} (h : s.Inv) (hslot : SlotOk (b ∈ s.pool) (f (s.slots b)))
    (hdata : b ∈ s.pool → dataOf (f (s.slots b)) = dataOf (s.slots b)) : (s.modify b f).Inv := by
  apply h.of_others
  · rw [modify_slots_self]
    exact hslot
  · intro a hab
    exact ⟨modify_slots_ne f hab, Iff.rfl⟩
  · refine sorted_of_data h.sorted fun a ha => ?_
    rw [data_eq, data_eq]
    by_cases hab : a = b
    · subst hab
      rw [modify_slots_self]
      exact hdata ha
    · rw [modify_slots_ne f hab]
  · exact h.unfaulted

/-! ### A call takes a step -/

section Take

variable {x : Option SSharedBuffer} {refs : ℕ} {c : Call} {calls : Multiset Call}

theorem exists_slot (hc : c ∈ (s.slots b).calls) :
    ∃ x refs calls, s.slots b = ⟨x, refs, c ::ₘ calls⟩ := by
  obtain ⟨calls, hcalls⟩ := exists_cons_of_mem hc
  exact ⟨(s.slots b).buffer, (s.slots b).refs, calls, by rw [← hcalls]⟩

theorem take_slots (hv : s.slots b = ⟨x, refs, c ::ₘ calls⟩) :
    (s.take b c).slots b = ⟨x, refs, calls⟩ := by
  unfold take
  rw [modify_slots_self, hv, erase_cons_head]

theorem take_slots_ne {a : ℕ} (h : a ≠ b) : (s.take b c).slots a = s.slots a :=
  modify_slots_ne _ h

@[simp] theorem take_pool : (s.take b c).pool = s.pool := rfl

theorem take_data : (s.take b c).data = s.data := by
  funext a
  rw [data_eq, data_eq]
  by_cases hab : a = b
  · subst hab
    unfold take
    rw [modify_slots_self]
    rfl
  · rw [take_slots_ne hab]

theorem take_findInPool : (s.take b c).findInPool b = s.findInPool b := by
  unfold findInPool
  rw [take_data]
  rfl

theorem Inv.take_modify {f : Slot → Slot} (h : s.Inv) (hv : s.slots b = ⟨x, refs, c ::ₘ calls⟩)
    (hslot : SlotOk (b ∈ s.pool) (f ⟨x, refs, calls⟩))
    (hdata : b ∈ s.pool → dataOf (f ⟨x, refs, calls⟩) = dataOf ⟨x, refs, calls⟩) :
    ((s.take b c).modify b f).Inv := by
  have herase : (⟨x, refs, (c ::ₘ calls).erase c⟩ : Slot) = ⟨x, refs, calls⟩ := by
    rw [erase_cons_head]
  unfold take
  rw [modify_modify]
  apply h.modify
  · rw [hv]
    rw [herase]
    exact hslot
  · intro hb
    rw [hv]
    rw [herase]
    exact hdata hb

theorem Inv.take (h : s.Inv) (hv : s.slots b = ⟨x, refs, c ::ₘ calls⟩)
    (hslot : SlotOk (b ∈ s.pool) ⟨x, refs, calls⟩) : (s.take b c).Inv := by
  have heq : (s.take b c).modify b id = s.take b c := by
    unfold SharedBuffers.take
    rw [modify_modify]
    rfl
  rw [← heq]
  exact h.take_modify hv hslot fun _ => rfl

theorem Inv.read (h : s.Inv) (hc : .decUsers .read ∈ (s.slots b).calls) (copy : Option ℕ)
    (grown : Bool) : ((s.take b (.decUsers .read)).runCall b copy grown (.decUsers .read)).Inv := by
  obtain ⟨x, refs, calls, hv⟩ := exists_slot hc
  have hok := h.slot b
  rw [hv] at hok
  have ht := take_slots hv
  unfold runCall decStep readUsers
  rw [ht]
  rcases hok.of_refs rfl with ⟨data, rfl, hp, hfits⟩ | ⟨n, p, e, data, rfl, hlive⟩
  · have hne : staticUsers ≠ oneUser := by decide
    dsimp only
    rw [if_neg hne]
    refine h.take_modify hv (.static hp fun d hd => ?_) fun _ => rfl
    rcases mem_cons.1 hd with rfl | hd
    · exact staticUsers_isStatic
    · exact hfits d (mem_cons_of_mem hd)
  · dsimp only
    by_cases hone : word (n + 1) p = oneUser
    · -- the only user goes on to free the buffer
      obtain ⟨hn, rfl⟩ := (word_eq_oneUser hlive.room).1 hone
      rw [if_pos hone]
      obtain rfl : n = 0 := by omega
      obtain ⟨rfl, rfl⟩ := hlive.alone rfl
      exact h.take_modify hv
        (.dying (fun hb => absurd (hlive.pool.1 hb) (by decide)) (not_isStatic_word (by decide)))
        fun _ => rfl
    · rw [if_neg hone]
      exact h.take_modify hv (.live (hlive.next rfl rfl
        ⟨not_isStatic_word hlive.room, (isPooled_word hlive.room).1⟩)) fun _ => rfl

theorem Inv.decrement (h : s.Inv) {users : BitVec 32}
    (hc : .decUsers (.decrement users) ∈ (s.slots b).calls) (copy : Option ℕ) (grown : Bool)
    (hq : ∀ x ∈ (s.slots b).buffer, count x.users = 1 → IsPooled x.users → IsPooled users) :
    ((s.take b (.decUsers (.decrement users))).runCall b copy grown
      (.decUsers (.decrement users))).Inv := by
  obtain ⟨x, refs, calls, hv⟩ := exists_slot hc
  have hok := h.slot b
  rw [hv] at hok hq
  have ht := take_slots hv
  unfold runCall decStep SharedBuffers.decrement
  rcases hok.of_refs rfl with ⟨data, rfl, hp, hfits⟩ | ⟨n, p, e, data, rfl, hlive⟩
  · have hstatic : IsStatic users := hfits _ (mem_cons_self _ _)
    dsimp only
    rw [if_pos hstatic]
    exact h.take hv (.static hp fun d hd => hfits d (mem_cons_of_mem hd))
  · obtain ⟨hheap, hpooled⟩ := hlive.fits _ (mem_cons_self _ _)
    dsimp only
    rw [if_neg hheap, ht]
    dsimp only
    rw [word_sub_oneUser]
    by_cases hn : n = 0
    · subst hn
      have hone : count (word (0 + 1) p) = 1 := (count_word hlive.room (by decide)).2 rfl
      rw [if_pos hone]
      unfold setUsers goOn
      by_cases hp : IsPooled users
      · obtain rfl : p = true := hpooled hp
        rw [if_pos hp]
        dsimp only
        rw [modify_modify]
        exact h.take_modify hv (.live (hlive.sub_last rfl)) fun _ => rfl
      · obtain rfl : p = false := by
          rw [Bool.eq_false_iff]
          intro hpt
          exact hp (hq _ rfl hone ((isPooled_word hlive.room).2 hpt))
        rw [if_neg hp]
        dsimp only
        rw [modify_modify]
        obtain ⟨rfl, rfl⟩ := hlive.alone rfl
        exact h.take_modify hv (.dying (fun hb => absurd (hlive.pool.1 hb) (by decide))
          (not_isStatic_word (by decide))) fun _ => rfl
    · have hone : count (word (n + 1) p) ≠ 1 := by
        intro h1
        have := (count_word (k := 1) hlive.room (by decide)).1 h1
        omega
      rw [if_neg hone]
      exact h.take_modify hv (.live (hlive.sub rfl hn)) fun _ => rfl

theorem Inv.doDelete (h : s.Inv) (hc : .decUsers .doDelete ∈ (s.slots b).calls) (copy : Option ℕ)
    (grown : Bool) :
    ((s.take b (.decUsers .doDelete)).runCall b copy grown (.decUsers .doDelete)).Inv := by
  obtain ⟨x, refs, calls, hv⟩ := exists_slot hc
  have hok := h.slot b
  rw [hv] at hok
  have ht := take_slots hv
  obtain ⟨y, rfl, hp, -, rfl, rfl⟩ := hok.of_doDelete
  unfold runCall decStep SharedBuffers.doDelete
  rw [ht]
  exact h.take_modify hv (.free hp) fun hb => absurd hb hp

theorem mem_eraseIdx_iff (h : Table compare s.data s.pool) {pos a : ℕ} (hpos : s.pool[pos]? = some b) :
    a ∈ s.pool.eraseIdx pos ↔ a ∈ s.pool ∧ a ≠ b := by
  rw [List.mem_eraseIdx_iff_getElem?]
  constructor
  · rintro ⟨i, hi, ha⟩
    refine ⟨List.mem_of_getElem? ha, fun hab => hi ?_⟩
    subst hab
    exact h.getElem?_inj ha hpos rfl
  · rintro ⟨ha, hab⟩
    obtain ⟨i, hi⟩ := List.mem_iff_getElem?.1 ha
    refine ⟨i, fun hipos => hab ?_, hi⟩
    subst hipos
    exact Option.some.inj (hi.symm.trans hpos)

/-- `DecUsers` takes a buffer out of the pool, or finds that it is used again. -/
theorem Inv.unpool (h : s.Inv) (hc : .decUsers .unpool ∈ (s.slots b).calls) (copy : Option ℕ)
    (grown : Bool)
    (hq : ∀ x ∈ (s.slots b).buffer, count x.users = 0 →
      (s.slots b).calls.count (.decUsers .unpool) = 1) :
    ((s.take b (.decUsers .unpool)).runCall b copy grown (.decUsers .unpool)).Inv := by
  obtain ⟨x, refs, calls, hv⟩ := exists_slot hc
  have hok := h.slot b
  rw [hv] at hok hq
  have ht := take_slots hv
  obtain ⟨n, e, data, rfl, hlive⟩ := hok.of_unpool
  unfold runCall decStep SharedBuffers.unpool
  rw [ht, take_findInPool]
  dsimp only
  by_cases hn : n = 0
  · subst hn
    have hzero : count (word 0 true) = 0 := (count_word (k := 0) hlive.room (by decide)).2 rfl
    rw [if_neg (not_not.2 hzero)]
    obtain ⟨rfl, rfl⟩ := hlive.alone_unpool (hq _ rfl hzero)
    have hb : b ∈ s.pool := hlive.pool.2 rfl
    obtain ⟨pos, hpos⟩ := List.mem_iff_getElem?.1 hb
    have hfind : s.findInPool b = (true, pos) := search_mem h.sorted hpos
    rw [hfind]
    have hmem := fun a => mem_eraseIdx_iff (a := a) h.sorted hpos
    have hslots : ∀ a, a ≠ b → (((s.take b (.decUsers .unpool)).removeFromPool pos).goOn b
        (.decUsers .doDelete)).slots a = s.slots a := by
      intro a hab
      exact (modify_slots_ne _ hab).trans (take_slots_ne hab)
    apply h.of_others
    · unfold goOn
      rw [modify_slots_self]
      show SlotOk _ { (s.take b (.decUsers .unpool)).slots b with
        calls := _ ::ₘ ((s.take b (.decUsers .unpool)).slots b).calls }
      rw [ht]
      exact .dying (fun hb => ((hmem b).1 hb).2 rfl) (not_isStatic_word (by decide))
    · intro a hab
      exact ⟨hslots a hab, (hmem a).trans (and_iff_left hab)⟩
    · refine sorted_of_data (h.sorted.eraseIdx pos) fun a ha => ?_
      rw [data_eq, data_eq, hslots a ((hmem a).1 ha).2]
    · exact h.unfaulted
  · have hne : count (word n true) ≠ 0 := by
      intro h0
      exact hn ((count_word (k := 0) hlive.room (by decide)).1 h0)
    rw [if_pos hne]
    exact h.take hv (.live (hlive.keep hn))

theorem Inv.testPool (h : s.Inv) (hc : .pool ∈ (s.slots b).calls) (copy : Option ℕ) (grown : Bool) :
    ((s.take b .pool).runCall b copy grown .pool).Inv := by
  obtain ⟨x, refs, calls, hv⟩ := exists_slot hc
  have hok := h.slot b
  rw [hv] at hok
  have ht := take_slots hv
  unfold runCall
  rw [ht]
  rcases hok.of_refs rfl with ⟨data, rfl, hp, hfits⟩ | ⟨n, p, e, data, rfl, hlive⟩
  · dsimp only
    rw [if_pos (.inl staticUsers_isStatic)]
    exact h.take_modify hv
      (.static hp fun d hd => hfits d (mem_cons_of_mem hd)) fun _ => rfl
  · dsimp only
    split
    · exact h.take_modify hv (.live (hlive.give rfl)) fun _ => rfl
    · exact h.take_modify hv (.live (hlive.next rfl rfl trivial)) fun _ => rfl

variable {n : ℕ} {e : Bool} {data : List Byte}

/-- **`DecUsers` within a locked region**, of a buffer that is not in the pool. -/
theorem decUsersNow_eq (hx : (s.slots b).buffer = some ⟨word (n + 1) false, e, data⟩)
    (hroom : n + 1 < 2 ^ 28) :
    s.decUsersNow b = s.modify b fun v =>
      { v with buffer := if n = 0 then none else some ⟨word n false, e, data⟩ } := by
  unfold decUsersNow decSteps decStep readUsers
  rw [hx]
  dsimp only
  by_cases hn : n = 0
  · subst hn
    rw [if_pos ((word_eq_oneUser hroom).2 ⟨rfl, rfl⟩), if_pos rfl]
    unfold decSteps decStep SharedBuffers.doDelete
    rw [hx]
  · have hone : word (n + 1) false ≠ oneUser := by
      intro h1
      have := ((word_eq_oneUser hroom).1 h1).1
      omega
    have hcount : count (word (n + 1) false) ≠ 1 := by
      intro h1
      have := (count_word (k := 1) hroom (by decide)).1 h1
      omega
    rw [if_neg hone, if_neg hn]
    unfold decSteps decStep SharedBuffers.decrement
    dsimp only
    rw [if_neg (not_isStatic_word hroom), hx]
    dsimp only
    rw [if_neg hcount, word_sub_oneUser]
    rfl

theorem incUsers_eq {p : Bool} (hx : (s.slots b).buffer = some ⟨word n p, e, data⟩)
    (hroom : n < 2 ^ 28) :
    s.incUsers b = s.modify b fun v => { v with buffer := some ⟨word (n + 1) p, e, data⟩ } := by
  unfold incUsers
  rw [hx]
  dsimp only
  rw [if_neg (not_isStatic_word hroom), word_add_oneUser]
  rfl

/-- What `Pool` leaves of a buffer that its caller gives up for another one. -/
theorem Inv.give_up (h : s.Inv)
    (hv : s.slots b = ⟨some ⟨word (n + 1) false, e, data⟩, refs, .poolLocked ::ₘ calls⟩)
    (hlive : LiveOk (b ∈ s.pool) (n + 1) false refs (.poolLocked ::ₘ calls)) :
    ((s.take b .poolLocked).decUsersNow b).Inv := by
  have ht := take_slots hv
  rw [decUsersNow_eq (by rw [ht]) hlive.room]
  have hb : b ∉ s.pool := fun hb => absurd (hlive.pool.1 hb) (by decide)
  by_cases hn : n = 0
  · subst hn
    obtain ⟨rfl, rfl⟩ := hlive.alone rfl
    exact h.take_modify hv (.free hb) fun hb' => absurd hb' hb
  · rw [if_neg hn]
    exact h.take_modify hv (.live (hlive.sub rfl hn)) fun hb' => absurd hb' hb

theorem Inv.entry (h : s.Inv) (hb : b ∈ s.pool) : ∃ n e data refs calls,
    s.slots b = ⟨some ⟨word n true, e, data⟩, refs, calls⟩ ∧ LiveOk (b ∈ s.pool) n true refs calls := by
  have hok := h.slot b
  generalize hv : s.slots b = v at hok
  cases hok with
  | free hp | static hp _ | dying hp _ => exact absurd hb hp
  | @live n p e data refs calls hlive =>
    obtain rfl : p = true := hlive.pool.1 hb
    exact ⟨n, e, data, refs, calls, rfl, hlive⟩

theorem Inv.addUser (h : s.Inv) {p : Bool}
    (hv : s.slots b = ⟨some ⟨word n p, e, data⟩, refs, calls⟩)
    (hlive : LiveOk (b ∈ s.pool) n p refs calls) (hroom : s.HasRoom b) :
    ((s.incUsers b).addRef b).Inv := by
  have hn : n + 1 < 2 ^ 28 := by
    have := hroom ⟨word n p, e, data⟩ (by rw [hv]; rfl)
    rw [toNat_word hlive.room] at this
    unfold usersShift at this
    omega
  rw [incUsers_eq (by rw [hv]) hlive.room]
  unfold addRef
  rw [modify_modify]
  apply h.modify
  · rw [hv]
    exact .live (hlive.add hn)
  · intro _
    rw [hv]
    rfl

theorem Inv.alloc (h : s.Inv) (hfree : s.Free b) (e : Bool) (data : List Byte) :
    (s.modify b fun v =>
      { v with buffer := some (newBuffer e data), refs := v.refs + 1 }).Inv := by
  have hok := h.slot b
  unfold Free at hfree
  generalize hv : s.slots b = v at hok hfree
  cases hok with
  | free hp =>
    apply h.modify
    · rw [hv]
      refine @SlotOk.live _ 1 false _ _ _ _ ⟨by decide, rfl, ?_, ?_, by decide⟩
      · exact ⟨fun hb => absurd hb hp, fun hf => absurd hf (by decide)⟩
      · intro d hd
        exact absurd hd (notMem_zero d)
    · intro hb
      exact absurd hb hp
  | static hp _ | dying hp _ | live _ => exact absurd hfree (by simp)

theorem addToPool_cases (s : SharedBuffers) (a pos : ℕ) (grown : Bool) :
    s.addToPool a pos grown = none ∨ ∃ avail, s.addToPool a pos grown =
      some { s with pool := s.pool.insertIdx pos a, avail := avail } := by
  unfold addToPool
  by_cases hfull : s.avail < s.pool.length + 1
  · rw [if_pos hfull]
    cases grown with
    | false => exact .inl rfl
    | true => exact .inr ⟨_, rfl⟩
  · rw [if_neg hfull]
    exact .inr ⟨s.avail, rfl⟩

theorem Inv.poolNew (h : s.Inv) {pos : ℕ}
 (grown : Bool)
    (hv : s.slots b = ⟨some ⟨word (n + 1) false, e, data⟩, refs, .poolLocked ::ₘ calls⟩)
    (hlive : LiveOk (b ∈ s.pool) (n + 1) false refs (.poolLocked ::ₘ calls))
    (hfind : s.findInPool b = (false, pos)) : ((s.take b .poolLocked).poolNew b b pos grown).Inv := by
  have ht := take_slots hv
  obtain ⟨hnew, hlen, hinsert⟩ := search_not_found h.sorted hfind
  unfold SharedBuffers.poolNew
  rcases addToPool_cases (s.take b .poolLocked) b pos grown with hadd | ⟨avail, hadd⟩
  · rw [hadd]
    exact h.take_modify hv (.live (hlive.give rfl)) fun _ => rfl
  rw [hadd]
  unfold markPooled
  dsimp only
  rw [ht]
  dsimp only
  rw [word_or_pooledUsers hlive.room]
  unfold setUsers addRef
  rw [modify_modify]
  have hslots : ∀ (f : Slot → Slot) a, a ≠ b → (({ s.take b .poolLocked with
      pool := s.pool.insertIdx pos b, avail := avail }).modify b f).slots a = s.slots a := by
    intro f a hab
    exact (modify_slots_ne f hab).trans (take_slots_ne hab)
  have hmem : ∀ a, a ∈ s.pool.insertIdx pos b ↔ a = b ∨ a ∈ s.pool := fun a =>
    List.mem_insertIdx hlen
  apply h.of_others (b := b)
  · rw [modify_slots_self]
    rw [ht]
    have hgive := hlive.give rfl
    refine .live ⟨hgive.room, hgive.users, ?_, ?_, hgive.unused⟩
    · exact ⟨fun _ => rfl, fun _ => (hmem b).2 (.inl rfl)⟩
    · intro d hd
      have hd' := hgive.fits d hd
      cases d with
      | pool => trivial
      | poolLocked => trivial
      | decUsers pc =>
        cases pc with
        | read => trivial
        | decrement users => exact ⟨hd'.1, fun _ => rfl⟩
        | unpool => rfl
        | doDelete => exact hd'
  · intro a hab
    exact ⟨hslots _ a hab, (hmem a).trans (or_iff_right hab)⟩
  · refine sorted_of_data (hinsert b rfl) fun a ha => ?_
    rw [data_eq, data_eq]
    by_cases hab : a = b
    · subst hab
      rw [modify_slots_self]
      rw [ht, hv]
      rfl
    · exact congrArg dataOf (hslots _ a hab)
  · exact h.unfaulted

/-- A copy of a buffer does not go into the pool, and the buffer is given up for it. -/
theorem Inv.poolCopy (h : s.Inv) {pos a : ℕ}
 {grown : Bool}
    (hv : s.slots b = ⟨some ⟨word (n + 1) false, e, data⟩, refs, .poolLocked ::ₘ calls⟩)
    (hlive : LiveOk (b ∈ s.pool) (n + 1) false refs (.poolLocked ::ₘ calls)) (hfree : s.Free a)
    (hfull : s.avail < s.pool.length + 1 ∧ grown = false) :
    ((((s.take b .poolLocked).modify a fun v =>
      { v with buffer := some (newBuffer false data) }).decUsersNow b).poolNew b a pos
        grown).Inv := by
  have ht := take_slots hv
  have hab : a ≠ b := by
    rintro rfl
    unfold Free at hfree
    rw [hv] at hfree
    exact absurd hfree (by simp)
  have hup := h.give_up hv hlive
  rw [decUsersNow_eq (by rw [ht]) hlive.room] at hup
  rw [decUsersNow_eq (by rw [modify_slots_ne _ hab.symm, ht]) hlive.room, modify_comm hab]
  have hnone : ∀ t : SharedBuffers, t.avail = s.avail → t.pool = s.pool →
      t.poolNew b a pos grown = t.addRef a := by
    intro t ht1 ht2
    unfold SharedBuffers.poolNew addToPool
    rw [ht1, ht2, if_pos hfull.1, if_neg (by rw [hfull.2]; decide)]
  rw [hnone _ ?_ ?_]
  rotate_left
  · rfl
  · rfl
  unfold addRef
  rw [modify_modify]
  refine hup.alloc ?_ false data
  unfold Free
  rw [modify_slots_ne _ hab, take_slots_ne hab]
  exact hfree

theorem Inv.poolLocked (h : s.Inv) (hc : .poolLocked ∈ (s.slots b).calls) {copy : Option ℕ}
    {grown : Bool} (hcopy : ∀ a ∈ copy, s.Free a)
    (hq : s.Observes (.run b .poolLocked copy grown)) :
    ((s.take b .poolLocked).runCall b copy grown .poolLocked).Inv := by
  obtain ⟨x, refs, calls, hv⟩ := exists_slot hc
  have hok := h.slot b
  rw [hv] at hok
  have ht := take_slots hv
  dsimp only [Observes] at hq
  rw [hv] at hq
  unfold runCall SharedBuffers.poolLocked
  rw [ht]
  rcases hok.of_refs rfl with ⟨data, rfl, hp, hfits⟩ | ⟨n, p, e, data, rfl, hlive⟩
  · exact (hfits _ (mem_cons_self _ _)).elim
  dsimp only
  cases p with
  | true =>
    rw [if_pos ((isPooled_word hlive.room).2 rfl)]
    exact h.take_modify hv (.live (hlive.give rfl)) fun _ => rfl
  | false =>
    have hnot : ¬ IsPooled (word (n + 1) false) := by
      rw [isPooled_word hlive.room]
      decide
    have hq := hq _ rfl hnot
    rw [if_neg hnot, take_findInPool]
    cases hfind : s.findInPool b with
    | mk found pos =>
      rw [hfind] at hq
      cases found with
      | true =>
        obtain ⟨a, ha, -⟩ := search_found h.sorted hfind
        dsimp only at hq ⊢
        rw [take_pool, ha]
        dsimp only
        have hmem : a ∈ s.pool := List.mem_of_getElem? ha
        have hab : a ≠ b := by
          rintro rfl
          exact absurd (hlive.pool.1 hmem) (by decide)
        have hta : (s.take b .poolLocked).slots a = s.slots a := take_slots_ne hab
        obtain ⟨m, e', data', refs', calls', hva, hentry⟩ := h.entry hmem
        have hdec := decUsersNow_eq (s := s.take b .poolLocked) (b := b) (by rw [ht]) hlive.room
        -- the order of the two counts does not matter
        have hcomm : ((s.take b .poolLocked).incUsers a).decUsersNow b =
            ((s.take b .poolLocked).decUsersNow b).incUsers a := by
          rw [hdec, incUsers_eq (by rw [hta, hva]) hentry.room,
            incUsers_eq (by rw [modify_slots_ne _ hab, hta, hva]) hentry.room,
            decUsersNow_eq (by rw [modify_slots_ne _ hab.symm, ht]) hlive.room, modify_comm hab]
        rw [hcomm]
        have hup := h.give_up hv hlive
        rw [hdec] at hup ⊢
        have hva' := (modify_slots_ne (s := s.take b .poolLocked) (b := b) (fun v => { v with
          buffer := if n = 0 then none else some ⟨word n false, e, data⟩ }) hab).trans (hta.trans hva)
        refine hup.addUser hva' hentry ?_
        unfold HasRoom
        rw [hva', ← hva]
        exact hq a ha
      | false =>
        dsimp only at hq ⊢
        cases e with
        | false =>
          rw [if_neg (by decide)]
          exact h.poolNew grown hv hlive hfind
        | true =>
          rw [if_pos rfl]
          cases copy with
          | none => exact h.take_modify hv (.live (hlive.give rfl)) fun _ => rfl
          | some a =>
            rcases hq rfl with hnone | hfull
            · exact absurd hnone (by simp)
            · exact h.poolCopy hv hlive (hcopy a rfl) hfull

end Take

/-! ### Runs -/

theorem Inv.of_mayUse (h : s.Inv) (hmay : s.MayUse b) :
    (∃ data refs calls, s.slots b = ⟨some ⟨staticUsers, false, data⟩, refs, calls⟩ ∧ b ∉ s.pool ∧
        ∀ d ∈ calls, d.FitsStatic) ∨
      ∃ n p e data refs calls, s.slots b = ⟨some ⟨word n p, e, data⟩, refs, calls⟩ ∧ 0 < refs ∧
        LiveOk (b ∈ s.pool) n p refs calls := by
  have hok := h.slot b
  unfold MayUse AtStatic at hmay
  generalize hv : s.slots b = v at hok hmay
  cases hok with
  | free hp =>
    rcases hmay with h0 | ⟨x, hx, -⟩
    · exact absurd h0 (Nat.lt_irrefl 0)
    · exact absurd hx (by simp)
  | static hp hfits => exact .inl ⟨_, _, _, rfl, hp, hfits⟩
  | dying hp hx =>
    rcases hmay with h0 | ⟨x, hx', hs⟩
    · exact absurd h0 (Nat.lt_irrefl 0)
    · obtain ⟨⟩ := hx'
      exact absurd hs hx
  | live hlive =>
    right
    rcases hmay with h0 | ⟨x, hx', hs⟩
    · exact ⟨_, _, _, _, _, _, rfl, h0, hlive⟩
    · obtain ⟨⟩ := hx'
      exact absurd hs (not_isStatic_word hlive.room)

theorem Inv.incUsers (h : s.Inv) (hmay : s.MayUse b) (hroom : s.HasRoom b) :
    ((s.incUsers b).addRef b).Inv := by
  rcases h.of_mayUse hmay with ⟨data, refs, calls, hv, hp, hfits⟩ | ⟨n, p, e, data, refs, calls, hv, -,
    hlive⟩
  · unfold SharedBuffers.incUsers
    rw [hv]
    dsimp only
    rw [if_pos staticUsers_isStatic]
    apply h.modify
    · rw [hv]
      exact .static hp hfits
    · intro _
      rfl
  · exact h.addUser hv hlive hroom

theorem Inv.begin (h : s.Inv) (hmay : s.MayUse b) {c : Call} (hc : c = .pool ∨ c = .decUsers .read) :
    (s.modify b fun v => { v with refs := v.refs - 1, calls := c ::ₘ v.calls }).Inv := by
  have hrefs : c.refs = 1 := by rcases hc with rfl | rfl <;> rfl
  apply h.modify
  · rcases h.of_mayUse hmay with ⟨data, refs, calls, hv, hp, hfits⟩ | ⟨n, p, e, data, refs, calls, hv,
      hr, hlive⟩
    · rw [hv]
      refine .static hp fun d hd => ?_
      rcases mem_cons.1 hd with rfl | hd
      · rcases hc with rfl | rfl <;> trivial
      · exact hfits d hd
    · rw [hv]
      refine .live (hlive.begin hr hrefs ?_)
      rcases hc with rfl | rfl <;> trivial
  · intro _
    rfl

/-- **A step that observes keeps the invariant.** -/
theorem Inv.step {a : Action} (h : s.Inv) (hs : s.step a = some s') (hq : s.Observes a) :
    s'.Inv := by
  cases a with
  | alloc b extended data =>
    obtain ⟨hfree, hs⟩ := Option.ite_none_right_eq_some.1 hs
    obtain ⟨⟩ := hs
    exact h.alloc hfree extended data
  | incUsers b =>
    obtain ⟨hmay, hs⟩ := Option.ite_none_right_eq_some.1 hs
    obtain ⟨⟩ := hs
    exact h.incUsers hmay hq
  | begin b c =>
    obtain ⟨⟨hmay, hc⟩, hs⟩ := Option.ite_none_right_eq_some.1 hs
    obtain ⟨⟩ := hs
    exact h.begin hmay hc
  | run b c copy grown =>
    obtain ⟨⟨hc, hcopy⟩, hs⟩ := Option.ite_none_right_eq_some.1 hs
    obtain ⟨⟩ := hs
    cases c with
    | pool => exact h.testPool hc copy grown
    | poolLocked => exact h.poolLocked hc hcopy hq
    | decUsers pc =>
      cases pc with
      | read => exact h.read hc copy grown
      | decrement users => exact h.decrement hc copy grown hq
      | unpool => exact h.unpool hc copy grown hq
      | doDelete => exact h.doDelete hc copy grown

theorem Inv.init (statics : ℕ → Option (List Byte)) : (init statics).Inv where
  slot b := by
    show SlotOk _ ⟨(statics b).map _, 0, 0⟩
    cases statics b with
    | none => exact .free (by simp [SharedBuffers.init])
    | some data =>
      exact .static (by simp [SharedBuffers.init]) fun d hd => absurd hd (notMem_zero d)
  sorted := List.Pairwise.nil
  unfaulted := rfl

theorem Inv.member (h : s.Inv) {x : SSharedBuffer} (hx : s.LivePooled b x) : b ∈ s.pool := by
  have hok := h.slot b
  obtain ⟨⟨hbuf, hstays⟩, hheap, hpooled⟩ := hx
  generalize hv : s.slots b = v at hok hbuf hstays
  cases hok with
  | free hp => exact absurd hbuf (by simp)
  | static hp hfits =>
    obtain ⟨⟩ := hbuf
    exact absurd staticUsers_isStatic hheap
  | dying hp _ => exact absurd (mem_singleton_self _) hstays
  | live hlive =>
    obtain ⟨⟩ := hbuf
    exact hlive.pool.2 ((isPooled_word hlive.room).1 hpooled)

/-- **The invariant says that the pool is exact.** -/
theorem Inv.exact (h : s.Inv) : s.Exact where
  sorted := List.pairwise_map.2 h.sorted
  entry b hb := by
    obtain ⟨n, e, data, refs, calls, hv, hlive⟩ := h.entry hb
    refine ⟨⟨word n true, e, data⟩, ⟨⟨by rw [hv], fun hd => ?_⟩, not_isStatic_word hlive.room,
      (isPooled_word hlive.room).2 rfl⟩⟩
    rw [hv] at hd
    exact hlive.fits _ hd
  member b x hx := h.member hx
  distinct a b x y hx hy hxy := by
    refine h.sorted.unique (h.member hx) (h.member hy) ?_
    rw [data_eq, data_eq]
    unfold dataOf
    rw [hx.buffer, hy.buffer]
    exact hxy
  held b hr hstatic := by
    have hok := h.slot b
    unfold refsTo at hr
    unfold AtStatic at hstatic
    generalize hv : s.slots b = v at hok hr hstatic
    cases hok with
    | free hp => exact absurd hr (by simp)
    | static hp hfits => exact absurd ⟨_, rfl, staticUsers_isStatic⟩ hstatic
    | dying hp _ => exact absurd hr (by simp [Call.refs])
    | live hlive =>
      refine ⟨_, by rw [hv], fun hd => ?_⟩
      rw [hv] at hd
      exact hlive.fits _ hd
  unused b x hx hheap hr := by
    have hok := h.slot b
    obtain ⟨hbuf, hstays⟩ := hx
    unfold refsTo at hr
    generalize hv : s.slots b = v at hok hr hbuf hstays ⊢
    cases hok with
    | free hp => exact absurd hbuf (by simp)
    | static hp hfits =>
      obtain ⟨⟩ := hbuf
      exact absurd staticUsers_isStatic hheap
    | dying hp _ => exact absurd (mem_singleton_self _) hstays
    | live hlive => exact hlive.unused (hlive.users.trans hr)
  last b hd := by
    obtain ⟨x, refs, calls, hv⟩ := exists_slot hd
    have hok := h.slot b
    rw [hv] at hok
    obtain ⟨y, rfl, hp, -, rfl, rfl⟩ := hok.of_doDelete
    unfold refsTo
    rw [hv]
    exact ⟨rfl, by simp [Call.refs], by simp, hp⟩
  unfaulted := h.unfaulted

/-- **The pool is exact** in every state of a run in which every step observes: of any sequence of
calls, by any number of threads, with any of their steps between one another. -/
theorem exact_of_observes (statics : ℕ → Option (List Byte)) (actions : List Action)
    (h : AllSteps step Observes (SharedBuffers.init statics) actions) :
    AllStates step Exact (SharedBuffers.init statics) actions :=
  AllStates.imp (fun _ => Inv.exact) actions _
    (AllSteps.states (fun _ _ _ => Inv.step) actions _ (Inv.init statics) h)

/-- A buffer is pooled, another one with the same contents is given up for it, and its two users are
taken off at the same time. -/
theorem exact_of_observes_twice :
    AllStates step Exact (SharedBuffers.init fun _ => none)
      [.alloc 0 false [65, 0], .begin 0 .pool, .run 0 .pool none true,
        .run 0 .poolLocked none true, .alloc 1 false [65, 0], .begin 1 .pool,
        .run 1 .pool none true, .run 1 .poolLocked none true, .begin 0 (.decUsers .read),
        .begin 0 (.decUsers .read), .run 0 (.decUsers .read) none true,
        .run 0 (.decUsers .read) none true, .run 0 (.decUsers (.decrement 34)) none true,
        .run 0 (.decUsers (.decrement 34)) none true, .run 0 (.decUsers .unpool) none true,
        .run 0 (.decUsers .doDelete) none true] := by
  apply exact_of_observes
  refine AllSteps.cons rfl trivial ?_
  refine AllSteps.cons rfl trivial ?_
  refine AllSteps.cons rfl trivial ?_
  refine AllSteps.cons rfl (fun x hx _ => ?_) ?_
  · obtain ⟨⟩ := hx
    exact fun h => absurd h (by decide)
  refine AllSteps.cons rfl trivial ?_
  refine AllSteps.cons rfl trivial ?_
  refine AllSteps.cons rfl trivial ?_
  refine AllSteps.cons rfl (fun x hx _ => ?_) ?_
  · obtain ⟨⟩ := hx
    intro p hp y hy
    obtain ⟨⟩ := hp
    obtain ⟨⟩ := hy
    decide
  refine AllSteps.cons rfl trivial ?_
  refine AllSteps.cons rfl trivial ?_
  refine AllSteps.cons rfl trivial ?_
  refine AllSteps.cons rfl trivial ?_
  refine AllSteps.cons rfl (fun x hx _ _ => by decide) ?_
  refine AllSteps.cons rfl (fun x hx _ _ => by decide) ?_
  refine AllSteps.cons rfl (fun x hx _ => by decide) ?_
  exact AllSteps.cons rfl trivial trivial

/-- A copy of an extended buffer goes into the pool, and the flag does not go with it. -/
theorem not_exact :
    ¬ AllStates step Exact (SharedBuffers.init fun _ => none)
      [.alloc 0 true [65, 0], .incUsers 0, .begin 0 .pool, .run 0 .pool none true,
        .run 0 .poolLocked (some 1) true] := by
  intro h
  have hlast := h.last (rfl : run step (SharedBuffers.init fun _ => none) _ = some _)
  obtain ⟨x, hx⟩ := hlast.entry 1 (by decide)
  have hbuf := hx.buffer
  obtain ⟨⟩ := hbuf
  exact hx.pooled (by decide)

end SharedBuffers

end OpenBinder
