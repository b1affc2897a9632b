import Mathlib.Algebra.Order.BigOperators.Group.List
import Mathlib.Algebra.Order.Group.Nat
import Mathlib.Data.List.Count
import Mathlib.Data.List.Nodup
import OpenBinder.Proxy.Proxies

/-!
# The counts of the driver are exact

A thread that is in the middle of an operation holds references that nobody else does, and may owe
the driver a command. What the counts are and what the driver was told is the same at every step if
this is added.

* `Stage.weak`, `Stage.strong`, `Stage.due`: what a thread holds and owes.
* `Proxies.Inv`: what is kept by the steps that observe what they have to.
* `Proxies.Inv.change`: what a step leaves of it that is about one proxy.
* `Proxies.accounted_of_observes`: **in every run whose steps observe it, the counts are exact**.
-/

namespace OpenBinder

open Lib Function List

/-- The number of the elements of a list that have a property, when it changes for one of them. -/
theorem countP_change {l : List ℕ} (hl : l.Nodup) {b : ℕ} (hb : b ∈ l) {P P' : ℕ → Bool}
    (h : ∀ q ∈ l, q ≠ b → P' q = P q) :
    l.countP P' + (if P b then 1 else 0) = l.countP P + (if P' b then 1 else 0) := by
  have hperm := perm_cons_erase hb
  have hrest : (l.erase b).countP P' = (l.erase b).countP P := by
    refine countP_congr fun q hq => ?_
    rw [h q (mem_of_mem_erase hq) fun hqb => (hl.mem_erase_iff.1 hq).1 hqb]
  rw [hperm.countP_eq, hperm.countP_eq, countP_cons, countP_cons, hrest]
  omega

namespace Stage

/-- The proxy that a thread is at. -/
def proxy : Stage → ℕ
  | finishing b | decWeak b | expunging b | decrefing b | freeing b | copying b | initCopied b
  | promoting b | attempting b | waiting b | attempted b | finishingSpare b | initPromoted b => b

/-- The weak references that a thread holds. -/
def weak : Stage → ℕ
  | finishing _ | decWeak _ => 1
  | expunging _ | decrefing _ | freeing _ => 0
  | _ => 2

/-- The strong references that a thread holds. -/
def strong : Stage → ℕ
  | copying _ | finishingSpare _ | initPromoted _ => 1
  | initCopied _ => 2
  | _ => 0

/-- The commands that release a reference that a thread owes the driver. -/
def due : Stage → ℕ
  | finishing _ | attempted _ | finishingSpare _ => 1
  | _ => 0

/-- Whether a thread is in the destructor. -/
def destroys : Stage → ℕ
  | expunging _ | decrefing _ | freeing _ => 1
  | _ => 0

/-- Whether a thread is at the end of the destructor. -/
def frees : Stage → ℕ
  | freeing _ => 1
  | _ => 0

/-- Whether a thread owes the driver an acquire. -/
def inits : Stage → Bool
  | initCopied _ | initPromoted _ => true
  | _ => false

end Stage

/-- The sum over the threads at some proxies. -/
def sumOf (P : ℕ → Bool) (m : Stage → ℕ) (frames : List Stage) : ℕ :=
  (frames.map fun f => if P f.proxy then m f else 0).sum

variable {P : ℕ → Bool} {m : Stage → ℕ} {l : List Stage}

theorem sumOf_perm {l' : List Stage} (h : l.Perm l') :
    sumOf P m l = sumOf P m l' := (h.map _).sum_eq

theorem sumOf_append (P : ℕ → Bool) (m : Stage → ℕ) (l l' : List Stage) :
    sumOf P m (l ++ l') = sumOf P m l + sumOf P m l' := by
  unfold sumOf
  rw [map_append, sum_append]

theorem sumOf_of {b : ℕ} (h : ∀ f ∈ l, f.proxy = b) :
    sumOf P m l = if P b then (l.map m).sum else 0 := by
  induction l with
  | nil => simp [sumOf]
  | cons f rest ih =>
    have hf := h f mem_cons_self
    have hrest := ih fun g hg => h g (mem_cons_of_mem _ hg)
    unfold sumOf at hrest ⊢
    rw [map_cons, sum_cons, hrest, hf, map_cons, sum_cons]
    cases P b <;> simp

theorem sumOf_zero (h : ∀ f ∈ l, P f.proxy = true → m f = 0) : sumOf P m l = 0 := by
  refine sum_eq_zero fun x hx => ?_
  obtain ⟨f, hf, rfl⟩ := mem_map.1 hx
  cases hP : P f.proxy with
  | true => simpa using h f hf hP
  | false => simp

theorem sumOf_congr {P' : ℕ → Bool} (h : ∀ f ∈ l, P f.proxy = P' f.proxy) :
    sumOf P m l = sumOf P' m l := by
  unfold sumOf
  congr 1
  refine map_congr_left fun f hf => ?_
  rw [h f hf]

theorem le_sumOf {P : ℕ → Bool} {m : Stage → ℕ} {l : List Stage} {f : Stage} (hf : f ∈ l)
    (hP : P f.proxy = true) : m f ≤ sumOf P m l := by
  refine single_le_sum (fun x _ => Nat.zero_le x) _ ?_
  exact mem_map.2 ⟨f, hf, by rw [hP, if_pos rfl]⟩

namespace Proxy

/-- **A change of the counts of a proxy** leaves whom it stands for. -/
def Kept (f : Proxy → Proxy) : Prop := ∀ p, (f p).handle = p.handle ∧ (f p).lost = p.lost

theorem kept_incWeak : Kept incWeak := fun _ => ⟨rfl, rfl⟩

theorem kept_decWeak : Kept decWeak := fun _ => ⟨rfl, rfl⟩

theorem kept_incStrong : Kept incStrong := fun _ => ⟨rfl, rfl⟩

theorem kept_decStrong : Kept decStrong := fun _ => ⟨rfl, rfl⟩

theorem Kept.comp {f g : Proxy → Proxy} (hf : Kept f) (hg : Kept g) : Kept fun p => g (f p) :=
  fun p => ⟨(hg _).1.trans (hf p).1, (hg _).2.trans (hf p).2⟩

end Proxy

namespace Proxies

/-! ### What is kept -/

/-- The counts of a proxy, with what the threads hold. -/
structure Counted (s : Proxies) (b : ℕ) : Prop where
  weak : (s.proxies b).weak =
    (s.weakRefs b + s.strongRefs b + sumOf (· = b) Stage.weak s.frames : ℕ)
  strong : (s.proxies b).strongCount = (s.strongRefs b + sumOf (· = b) Stage.strong s.frames : ℕ)
  range : 0 ≤ (s.proxies b).strong ∧ (s.proxies b).strong ≤ initialPrimaryValue
  /-- One thread is in the destructor of a proxy without references. -/
  dying : sumOf (· = b) Stage.destroys s.frames + (s.proxies b).freed.toNat +
    (s.proxies b).lost.toNat = if (s.proxies b).weak = 0 then 1 else 0
  /-- A proxy with references is in its slot. -/
  cached : 0 < (s.proxies b).weak → s.table (s.proxies b).handle = some b

/-- **What is kept** by the steps that observe what they have to. -/
structure Inv (s : Proxies) : Prop where
  counted : ∀ b < s.made, s.Counted b
  fresh : ∀ b, s.made ≤ b → s.weakRefs b = 0 ∧ s.strongRefs b = 0
  frames : ∀ f ∈ s.frames, f.proxy < s.made ∧ f.inits = false
  slots : ∀ handle b, s.table handle = some b → b < s.made ∧ (s.proxies b).handle = handle ∧
    (0 < (s.proxies b).weak ∨ .expunging b ∈ s.frames ∨ (s.proxies b).lost = true)
  /-- What the driver was told, and what it is still to be told. -/
  acquired : ∀ handle, s.count .acquire handle + s.count .attempted handle -
    s.count .release handle = s.strongCount handle +
      sumOf (fun b => (s.proxies b).handle = handle) Stage.due s.frames
  increfed : ∀ handle, s.count .increfs handle - s.count .decrefs handle +
    sumOf (fun b => (s.proxies b).handle = handle) Stage.frees s.frames = s.liveCount handle
  sound : s.fatal = false

variable {s s' : Proxies} {b : ℕ}

theorem inv_init : Inv init where
  counted := fun _ hb => absurd hb (Nat.not_lt_zero _)
  fresh := fun _ _ => ⟨rfl, rfl⟩
  frames := fun _ hf => absurd hf not_mem_nil
  slots := fun _ _ h => nomatch h
  acquired := fun _ => rfl
  increfed := fun _ => rfl
  sound := rfl

theorem Counted.strong_of_weak (h : s.Counted b) (hweak : (s.proxies b).weak = 0) :
    (s.proxies b).strongCount = 0 := by
  have hw := h.weak
  have hs := h.strong
  have hle : sumOf (· = b) Stage.strong s.frames ≤ sumOf (· = b) Stage.weak s.frames := by
    unfold sumOf
    refine sum_le_sum fun f _ => ?_
    split
    · cases f <;> simp [Stage.strong, Stage.weak]
    · exact le_refl 0
  omega

theorem Counted.not_freed (h : s.Counted b) (hweak : 0 < (s.proxies b).weak) :
    (s.proxies b).freed = false ∧ (s.proxies b).lost = false := by
  have hd := h.dying
  rw [if_neg (by omega : ¬ (s.proxies b).weak = 0)] at hd
  cases hf : (s.proxies b).freed <;> cases hl : (s.proxies b).lost <;> simp [hf, hl] at hd ⊢

theorem Counted.live_strong (h : s.Counted b) :
    (!(s.proxies b).freed && decide (0 < (s.proxies b).strongCount)) =
      decide (0 < (s.proxies b).strongCount) := by
  cases hf : (s.proxies b).freed with
  | false => rfl
  | true =>
    have hzero : (s.proxies b).weak = 0 := by
      by_contra hne
      have hd := h.dying
      rw [if_neg hne, hf, Bool.toNat_true] at hd
      omega
    rw [h.strong_of_weak hzero]
    rfl

theorem Inv.accounted (h : Inv s) : Accounted s where
  acquired := by
    intro hnone handle
    have hcount := h.acquired handle
    rw [hnone] at hcount
    simpa [sumOf] using hcount
  increfed := by
    intro hnone handle
    have hcount := h.increfed handle
    rw [hnone] at hcount
    simpa [sumOf] using hcount
  one := by
    intro hnone b hlive hlost
    refine (h.counted b hlive.1).cached ?_
    have hd := (h.counted b hlive.1).dying
    have hw := (h.counted b hlive.1).weak
    rw [hnone, hlive.2, hlost] at hd
    by_contra hneg
    have hzero : (s.proxies b).weak = 0 := by omega
    rw [if_pos hzero] at hd
    simp [sumOf] at hd
  slots := by
    intro handle b hslot
    obtain ⟨hb, hhandle, hrefs⟩ := h.slots handle b hslot
    refine ⟨⟨hb, ?_⟩, hhandle⟩
    have hc := h.counted b hb
    rw [← Bool.not_eq_true]
    intro hfreed
    have hd := hc.dying
    have hone : (if (s.proxies b).weak = 0 then 1 else 0) ≤ 1 := by split <;> omega
    rw [← hd, hfreed] at hone
    rcases hrefs with hweak | hexp | hlost
    · rw [(hc.not_freed hweak).1] at hfreed
      cases hfreed
    · have hle := @le_sumOf (· = b) Stage.destroys _ _ hexp (by simp [Stage.proxy])
      have hdestroys : Stage.destroys (.expunging b) = 1 := rfl
      rw [Bool.toNat_true] at hone
      omega
    · rw [hlost, Bool.toNat_true] at hone
      omega
  sound := h.sound

/-! ### Steps at one proxy -/

/-- **What a step at one proxy leaves alone.** -/
structure At (s s' : Proxies) (b : ℕ) : Prop where
  made : s'.made = s.made
  proxies : ∀ q, q ≠ b → s'.proxies q = s.proxies q
  strongRefs : ∀ q, q ≠ b → s'.strongRefs q = s.strongRefs q
  weakRefs : ∀ q, q ≠ b → s'.weakRefs q = s.weakRefs q
  handle : (s'.proxies b).handle = (s.proxies b).handle
  lost : (s'.proxies b).lost = (s.proxies b).lost

namespace At

theorem refl (s : Proxies) (b : ℕ) : At s s b :=
  ⟨rfl, fun _ _ => rfl, fun _ _ => rfl, fun _ _ => rfl, rfl, rfl⟩

theorem same (h : At s s' b) {s'' : Proxies} (hmade : s''.made = s'.made)
    (hproxies : s''.proxies = s'.proxies) (hstrong : s''.strongRefs = s'.strongRefs)
    (hweak : s''.weakRefs = s'.weakRefs) : At s s'' b where
  made := hmade.trans h.made
  proxies := fun q hq => by rw [hproxies, h.proxies q hq]
  strongRefs := fun q hq => by rw [hstrong, h.strongRefs q hq]
  weakRefs := fun q hq => by rw [hweak, h.weakRefs q hq]
  handle := by rw [hproxies, h.handle]
  lost := by rw [hproxies, h.lost]

theorem goOn (h : At s s' b) (f : Stage) : At s (s'.goOn f) b := h.same rfl rfl rfl rfl

theorem write (h : At s s' b) (command : Command) (handle : ℕ) :
    At s (s'.write command handle) b := h.same rfl rfl rfl rfl

theorem modify (h : At s s' b) {f : Proxy → Proxy} (hf : Proxy.Kept f) :
    At s (s'.modify b f) b where
  made := h.made
  proxies := fun q hq => (update_of_ne hq _ _).trans (h.proxies q hq)
  strongRefs := h.strongRefs
  weakRefs := h.weakRefs
  handle := by rw [modify_proxies, (hf _).1, h.handle]
  lost := by rw [modify_proxies, (hf _).2, h.lost]

theorem own (h : At s s' b) (strong weak : ℕ) : At s (s'.own b strong weak) b where
  made := h.made
  proxies := h.proxies
  strongRefs := fun q hq => (update_of_ne hq _ _).trans (h.strongRefs q hq)
  weakRefs := fun q hq => (update_of_ne hq _ _).trans (h.weakRefs q hq)
  handle := h.handle
  lost := h.lost

end At

/-- The commands of a kind that are written. -/
def told (cs : List Command) (command : Command) : ℤ := cs.count command

/-- **What balances at a proxy**: what is counted, held and owed before a step of threads there, and
what is afterwards. -/
structure Balanced (s s' : Proxies) (b : ℕ) (out into : List Stage) (cs : List Command) :
    Prop where
  weak : (s'.proxies b).weak + (out.map Stage.weak).sum + s.strongRefs b + s.weakRefs b =
    (s.proxies b).weak + (into.map Stage.weak).sum + s'.strongRefs b + s'.weakRefs b
  strong : (s'.proxies b).strongCount + (out.map Stage.strong).sum + s.strongRefs b =
    (s.proxies b).strongCount + (into.map Stage.strong).sum + s'.strongRefs b
  range : 0 ≤ (s'.proxies b).strong ∧ (s'.proxies b).strong ≤ initialPrimaryValue
  dying : (into.map Stage.destroys).sum + (s'.proxies b).freed.toNat +
    (if (s.proxies b).weak = 0 then 1 else 0) = (out.map Stage.destroys).sum +
      (s.proxies b).freed.toNat + (if (s'.proxies b).weak = 0 then 1 else 0)
  acquired : told cs .acquire + told cs .attempted - told cs .release +
    (if 0 < (s.proxies b).strongCount then 1 else 0 : ℕ) + (out.map Stage.due).sum =
      (if 0 < (s'.proxies b).strongCount then 1 else 0 : ℕ) + (into.map Stage.due).sum
  increfed : told cs .increfs - told cs .decrefs + (if (s.proxies b).freed then 0 else 1) +
    (into.map Stage.frees).sum =
      (if (s'.proxies b).freed then 0 else 1) + (out.map Stage.frees).sum
  kept : 0 < (s.proxies b).weak → 0 < (s'.proxies b).weak ∨ Stage.expunging b ∈ into
  revived : 0 < (s'.proxies b).weak → 0 < (s.proxies b).weak
  frames : ∀ f ∈ into, f.proxy = b ∧ f.inits = false

theorem count_append (handle h : ℕ) (cs : List Command) (command : Command)
    (hcommands : s'.commands = s.commands ++ cs.map (·, handle)) :
    s'.count command h = s.count command h + if handle = h then told cs command else 0 := by
  unfold count told
  rw [hcommands, List.count_append]
  have hmap : ((cs.map (·, handle)).count (command, h) : ℤ) =
      if handle = h then (cs.count command : ℤ) else 0 := by
    split
    · rename_i heq
      subst heq
      rw [count_map_of_injective _ (·, handle) fun a c hac => (Prod.mk.inj hac).1]
    · rename_i hne
      rw [count_eq_zero.2]
      · rfl
      · intro hmem
        obtain ⟨_, _, heq⟩ := mem_map.1 hmem
        exact hne (Prod.mk.inj heq).2
  push_cast
  rw [hmap]

/-- **A step at one proxy** keeps what is kept if it balances. -/
theorem Inv.change (h : Inv s) (hb : b < s.made) (out into : List Stage) (cs : List Command)
    (hat : At s s' b) (hbal : Balanced s s' b out into cs)
    (hframes : ∃ rest, s.frames.Perm (out ++ rest) ∧ s'.frames.Perm (into ++ rest))
    (hout : ∀ f ∈ out, f.proxy = b)
    (hcommands : s'.commands = s.commands ++ cs.map (·, (s.proxies b).handle))
    (htable : ∀ handle, s'.table handle = s.table handle ∨
      s'.table handle = none ∧ s.table handle = some b ∧ (s.proxies b).weak = 0)
    (hexpunge : Stage.expunging b ∈ out → Stage.expunging b ∈ into ∨
      ∀ handle, s'.table handle ≠ some b)
    (hfatal : s'.fatal = false) : Inv s' := by
  obtain ⟨rest, hperm, hperm'⟩ := hframes
  have hinto : ∀ f ∈ into, f.proxy = b := fun f hf => (hbal.frames f hf).1
  have hhandle : ∀ q, (s'.proxies q).handle = (s.proxies q).handle := by
    intro q
    by_cases hq : q = b
    · rw [hq, hat.handle]
    · rw [hat.proxies q hq]
  have hsums : ∀ P m, sumOf P m s.frames = (if P b then (out.map m).sum else 0) + sumOf P m rest ∧
      sumOf P m s'.frames = (if P b then (into.map m).sum else 0) + sumOf P m rest := by
    intro P m
    rw [sumOf_perm hperm, sumOf_perm hperm', sumOf_append, sumOf_append, sumOf_of hout,
      sumOf_of hinto]
    exact ⟨rfl, rfl⟩
  -- the sums at the proxy and at the others
  have hself : ∀ m, sumOf (· = b) m s.frames = (out.map m).sum + sumOf (· = b) m rest ∧
      sumOf (· = b) m s'.frames = (into.map m).sum + sumOf (· = b) m rest :=
    fun m => by simpa using hsums (· = b) m
  have hother : ∀ q, q ≠ b → ∀ m, sumOf (· = q) m s'.frames = sumOf (· = q) m s.frames := by
    intro q hq m
    rw [(hsums _ m).1, (hsums _ m).2]
    simp [Ne.symm hq]
  have hcounted := h.counted b hb
  have hslot : ∀ q, 0 < (s'.proxies q).weak → s.table (s.proxies q).handle = some q →
      s'.table (s.proxies q).handle = some q := by
    intro q hweak hq
    rcases htable (s.proxies q).handle with heq | ⟨-, hb', hzero⟩
    · rw [heq, hq]
    · obtain ⟨⟩ := hq.symm.trans hb'
      exact absurd (hbal.revived hweak) (by omega)
  have hcounted' : s'.Counted b := by
    refine ⟨?_, ?_, hbal.range, ?_, ?_⟩
    · have hold := hcounted.weak
      have hnew := hbal.weak
      rw [(hself _).1] at hold
      rw [(hself _).2]
      omega
    · have hold := hcounted.strong
      have hnew := hbal.strong
      rw [(hself _).1] at hold
      rw [(hself _).2]
      omega
    · have hold := hcounted.dying
      have hnew := hbal.dying
      rw [(hself _).1] at hold
      rw [(hself _).2, hat.lost]
      omega
    · intro hweak
      rw [hat.handle]
      exact hslot b hweak (hcounted.cached (hbal.revived hweak))
  have hmem : b ∈ List.range s.made := mem_range.2 hb
  constructor
  · intro q hq
    rw [hat.made] at hq
    by_cases hqb : q = b
    · rw [hqb]
      exact hcounted'
    · have hc := h.counted q hq
      refine ⟨?_, ?_, ?_, ?_, ?_⟩
      · rw [hat.proxies q hqb, hat.weakRefs q hqb, hat.strongRefs q hqb, hother q hqb]
        exact hc.weak
      · rw [hat.proxies q hqb, hat.strongRefs q hqb, hother q hqb]
        exact hc.strong
      · rw [hat.proxies q hqb]
        exact hc.range
      · rw [hat.proxies q hqb, hother q hqb]
        exact hc.dying
      · intro hweak
        rw [hhandle]
        refine hslot q hweak (hc.cached ?_)
        rwa [hat.proxies q hqb] at hweak
  · intro q hq
    rw [hat.made] at hq
    have hqb : q ≠ b := by omega
    rw [hat.weakRefs q hqb, hat.strongRefs q hqb]
    exact h.fresh q hq
  · intro f hf
    rw [hat.made]
    rcases mem_append.1 (hperm'.mem_iff.1 hf) with hf | hf
    · rw [(hbal.frames f hf).1]
      exact ⟨hb, (hbal.frames f hf).2⟩
    · exact h.frames f (hperm.mem_iff.2 (mem_append_right _ hf))
  · intro handle q hq
    have hold : s.table handle = some q := by
      rcases htable handle with heq | ⟨hnone, -⟩
      · rw [← heq, hq]
      · rw [hnone] at hq
        cases hq
    obtain ⟨hmade, hqh, hrefs⟩ := h.slots handle q hold
    rw [hat.made, hhandle]
    refine ⟨hmade, hqh, ?_⟩
    by_cases hqb : q = b
    · subst hqb
      rcases hrefs with hweak | hexp | hlost
      · rcases hbal.kept hweak with hweak' | hexp
        · exact .inl hweak'
        · exact .inr (.inl (hperm'.mem_iff.2 (mem_append_left _ hexp)))
      · rcases mem_append.1 (hperm.mem_iff.1 hexp) with hexp | hexp
        · rcases hexpunge hexp with hinto' | hgone
          · exact .inr (.inl (hperm'.mem_iff.2 (mem_append_left _ hinto')))
          · exact absurd hq (hgone handle)
        · exact .inr (.inl (hperm'.mem_iff.2 (mem_append_right _ hexp)))
      · exact .inr (.inr (by rw [hat.lost, hlost]))
    · rw [hat.proxies q hqb]
      refine hrefs.imp_right (Or.imp_left fun hexp => ?_)
      rcases mem_append.1 (hperm.mem_iff.1 hexp) with hexp | hexp
      · exact absurd (hout _ hexp) hqb
      · exact hperm'.mem_iff.2 (mem_append_right _ hexp)
  · intro handle
    have hold := h.acquired handle
    have hbalanced := hbal.acquired
    have hcount : s'.strongCount handle + (if (s.proxies b).handle = handle ∧
        0 < (s.proxies b).strongCount then 1 else 0) = s.strongCount handle +
          (if (s.proxies b).handle = handle ∧ 0 < (s'.proxies b).strongCount then 1 else 0) := by
      have hchange := @countP_change _ nodup_range b hmem
        (fun q => ((s.proxies q).handle = handle && !(s.proxies q).freed) &&
          decide (0 < (s.proxies q).strongCount))
        (fun q => ((s'.proxies q).handle = handle && !(s'.proxies q).freed) &&
          decide (0 < (s'.proxies q).strongCount)) fun q _ hq => by rw [hat.proxies q hq]
      simp only [Bool.and_assoc, hcounted.live_strong, hcounted'.live_strong, hat.handle] at hchange
      unfold strongCount
      rw [hat.made]
      simp only [Bool.and_eq_true, decide_eq_true_eq] at hchange
      simp only [Bool.and_assoc]
      exact hchange
    rw [(hsums _ _).1] at hold
    simp only [hhandle, (hsums _ _).2, decide_eq_true_eq] at hold ⊢
    simp only [fun command => count_append (s.proxies b).handle handle cs command hcommands]
    by_cases hh : (s.proxies b).handle = handle
    · simp only [hh, true_and, if_true] at hold hcount ⊢
      omega
    · simp only [hh, false_and, if_false] at hold hcount ⊢
      omega
  · intro handle
    have hold := h.increfed handle
    have hbalanced := hbal.increfed
    have hcount : s'.liveCount handle + (if (s.proxies b).handle = handle ∧
        (s.proxies b).freed = false then 1 else 0) = s.liveCount handle +
          (if (s.proxies b).handle = handle ∧ (s'.proxies b).freed = false then 1 else 0) := by
      have hchange := @countP_change _ nodup_range b hmem
        (fun q => (s.proxies q).handle = handle && !(s.proxies q).freed)
        (fun q => (s'.proxies q).handle = handle && !(s'.proxies q).freed)
        fun q _ hq => by rw [hat.proxies q hq]
      unfold liveCount
      rw [hat.made]
      simpa [hat.handle] using hchange
    rw [(hsums _ _).1] at hold
    simp only [hhandle, (hsums _ _).2, decide_eq_true_eq] at hold ⊢
    simp only [fun command => count_append (s.proxies b).handle handle cs command hcommands]
    by_cases hh : (s.proxies b).handle = handle
    · simp only [hh, true_and, if_true] at hold hcount ⊢
      cases hf : (s.proxies b).freed <;> cases hf' : (s'.proxies b).freed <;>
      · simp only [hf, hf', if_true, Bool.false_eq_true, if_false, reduceCtorEq] at hbalanced hcount
        omega
    · simp only [hh, false_and, if_false] at hold hcount ⊢
      omega
  · exact hfatal

/-- **A step at a proxy that has references** before and after. -/
theorem Inv.alive (h : Inv s) (hb : b < s.made) (out into : List Stage) (cs : List Command)
    (hat : At s s' b) (hpos : 0 < (s.proxies b).weak)
    (hfreed : (s'.proxies b).freed = (s.proxies b).freed) (htable : s'.table = s.table)
    (hfatal : s'.fatal = s.fatal)
    (hcommands : s'.commands = s.commands ++ cs.map (·, (s.proxies b).handle))
    (hcs : ∀ c ∈ cs, c ≠ .increfs ∧ c ≠ .decrefs)
    (hframes : ∃ rest, s.frames.Perm (out ++ rest) ∧ s'.frames.Perm (into ++ rest))
    (hout : ∀ f ∈ out, f.proxy = b ∧ f.destroys = 0)
    (hinto : ∀ f ∈ into, f.proxy = b ∧ f.destroys = 0 ∧ f.inits = false)
    (hpos' : 0 < (s'.proxies b).weak)
    (hweak : (s'.proxies b).weak + (out.map Stage.weak).sum + s.strongRefs b + s.weakRefs b =
      (s.proxies b).weak + (into.map Stage.weak).sum + s'.strongRefs b + s'.weakRefs b)
    (hstrong : (s'.proxies b).strongCount + (out.map Stage.strong).sum + s.strongRefs b =
      (s.proxies b).strongCount + (into.map Stage.strong).sum + s'.strongRefs b)
    (hrange : 0 ≤ (s'.proxies b).strong ∧ (s'.proxies b).strong ≤ initialPrimaryValue)
    (hacquired : told cs .acquire + told cs .attempted - told cs .release +
      (if 0 < (s.proxies b).strongCount then 1 else 0 : ℕ) + (out.map Stage.due).sum =
        (if 0 < (s'.proxies b).strongCount then 1 else 0 : ℕ) + (into.map Stage.due).sum) :
    Inv s' := by
  have hzero : ∀ (m : Stage → ℕ) (l : List Stage), (∀ f ∈ l, m f = 0) → (l.map m).sum = 0 := by
    intro m l hl
    refine sum_eq_zero fun x hx => ?_
    obtain ⟨f, hf, rfl⟩ := mem_map.1 hx
    exact hl f hf
  have hfrees : ∀ f : Stage, f.destroys = 0 → f.frees = 0 := by
    intro f hf
    cases f <;> first | rfl | cases hf
  have hnot : ∀ l : List Stage, (∀ f ∈ l, f.destroys = 0) → Stage.expunging b ∉ l :=
    fun l hl hmem => absurd (hl _ hmem) Nat.one_ne_zero
  have htold : told cs .increfs = 0 ∧ told cs .decrefs = 0 := by
    unfold told
    rw [count_eq_zero.2 fun hmem => (hcs _ hmem).1 rfl,
      count_eq_zero.2 fun hmem => (hcs _ hmem).2 rfl]
    exact ⟨rfl, rfl⟩
  refine h.change hb out into cs hat ?_ hframes (fun f hf => (hout f hf).1) hcommands
    (fun _ => .inl (by rw [htable]))
    (fun hmem => absurd hmem (hnot out fun f hf => (hout f hf).2)) (by rw [hfatal, h.sound])
  refine ⟨hweak, hstrong, hrange, ?_, hacquired, ?_, fun _ => .inl hpos', fun _ => hpos,
    fun f hf => ⟨(hinto f hf).1, (hinto f hf).2.2⟩⟩
  · rw [hzero _ into fun f hf => (hinto f hf).2.1, hzero _ out fun f hf => (hout f hf).2, hfreed,
      if_neg hpos.ne', if_neg hpos'.ne']
  · rw [htold.1, htold.2, hzero _ into fun f hf => hfrees f (hinto f hf).2.1,
      hzero _ out fun f hf => hfrees f (hout f hf).2, hfreed, sub_zero, zero_add]

/-! ### New proxies -/

variable {handle : ℕ}

section

variable (h : Inv s) (hslot : s.slot handle = none)
include h hslot

theorem Inv.handle_ne (hb : b < s.made) (hweak : 0 < (s.proxies b).weak) :
    (s.proxies b).handle ≠ handle := by
  intro heq
  have hcached := (h.counted b hb).cached hweak
  unfold slot at hslot
  rw [heq] at hcached
  rw [hcached] at hslot
  simp only [Option.filter_some, hweak, decide_true, if_true] at hslot
  cases hslot

theorem Inv.create {strong weak : ℕ} {p : Proxy} (hhandle : p.handle = handle)
    (hfreed : p.freed = false) (hweak : p.weak = (weak + strong : ℕ))
    (hstrong : p.strongCount = strong) (hrange : 0 ≤ p.strong ∧ p.strong ≤ initialPrimaryValue)
    (hlost : p.lost.toNat = if p.weak = 0 then 1 else 0)
    (hs' : s' = s.create handle p strong weak ∧ strong = 0 ∨
      s' = (s.create handle p strong weak).write .acquire handle ∧ 0 < strong) : Inv s' := by
  have hproxies : s'.proxies = update s.proxies s.made p := by
    rcases hs' with ⟨rfl, -⟩ | ⟨rfl, -⟩ <;> rfl
  have htable : s'.table = update s.table handle (some s.made) := by
    rcases hs' with ⟨rfl, -⟩ | ⟨rfl, -⟩ <;> rfl
  have hstrongRefs : s'.strongRefs = update s.strongRefs s.made strong := by
    rcases hs' with ⟨rfl, -⟩ | ⟨rfl, -⟩ <;> rfl
  have hweakRefs : s'.weakRefs = update s.weakRefs s.made weak := by
    rcases hs' with ⟨rfl, -⟩ | ⟨rfl, -⟩ <;> rfl
  have hframes : s'.frames = s.frames := by
    rcases hs' with ⟨rfl, -⟩ | ⟨rfl, -⟩ <;> rfl
  have hmade : s'.made = s.made + 1 := by
    rcases hs' with ⟨rfl, -⟩ | ⟨rfl, -⟩ <;> rfl
  have hfatal : s'.fatal = false := by
    rcases hs' with ⟨rfl, -⟩ | ⟨rfl, -⟩ <;> exact h.sound
  have hcommands : s'.commands = s.commands ++
      (if 0 < strong then [Command.increfs, .acquire] else [.increfs]).map (·, handle) := by
    rcases hs' with ⟨rfl, h0⟩ | ⟨rfl, h0⟩
    · simp [Proxies.create, h0]
    · simp [Proxies.create, write, h0]
  have hnew : s'.proxies s.made = p := by rw [hproxies, update_self]
  have hold : ∀ q, q < s.made → s'.proxies q = s.proxies q := fun q hq => by
    rw [hproxies, update_of_ne (by omega)]
  have hnone : ∀ m, sumOf (· = s.made) m s'.frames = 0 := by
    intro m
    rw [hframes]
    refine sumOf_zero fun f hf hP => ?_
    have := (h.frames f hf).1
    simp at hP
    omega
  have hsame : ∀ handle' m, sumOf (fun b => (s'.proxies b).handle = handle') m s'.frames =
      sumOf (fun b => (s.proxies b).handle = handle') m s.frames := by
    intro handle' m
    rw [hframes]
    refine sumOf_congr fun f hf => ?_
    rw [hold _ (h.frames f hf).1]
  refine ⟨fun q hq => ?_, fun q hq => ?_, fun f hf => ?_, fun handle' q hq => ?_, fun handle' => ?_,
    fun handle' => ?_, hfatal⟩
  · by_cases hqm : q = s.made
    · subst hqm
      refine ⟨?_, ?_, by rwa [hnew], ?_, fun _ => ?_⟩
      · rw [hnew, hstrongRefs, hweakRefs, update_self, update_self, hnone, hweak]
        omega
      · rw [hnew, hstrongRefs, update_self, hnone, hstrong]
        omega
      · rw [hnew, hnone, hfreed, hlost]
        simp
      · rw [hnew, hhandle, htable, update_self]
    · have hlt : q < s.made := by omega
      have hc := h.counted q hlt
      refine ⟨?_, ?_, ?_, ?_, fun hweak' => ?_⟩
      · rw [hold q hlt, hstrongRefs, hweakRefs, update_of_ne hqm,
          update_of_ne hqm,
          hframes]
        exact hc.weak
      · rw [hold q hlt, hstrongRefs, update_of_ne hqm, hframes]
        exact hc.strong
      · rw [hold q hlt]
        exact hc.range
      · rw [hold q hlt, hframes]
        exact hc.dying
      · rw [hold q hlt] at hweak' ⊢
        rw [htable, update_of_ne (h.handle_ne hslot hlt hweak')]
        exact hc.cached hweak'
  · rw [hmade] at hq
    rw [hstrongRefs, hweakRefs, update_of_ne (by omega), update_of_ne (by omega)]
    exact h.fresh q (by omega)
  · rw [hframes] at hf
    obtain ⟨hlt, hinit⟩ := h.frames f hf
    exact ⟨by omega, hinit⟩
  · rw [htable] at hq
    by_cases hh : handle' = handle
    · rw [hh, update_self] at hq
      obtain ⟨⟩ := hq
      rw [hnew, hh]
      refine ⟨by omega, hhandle, ?_⟩
      by_cases h0 : p.weak = 0
      · rw [if_pos h0] at hlost
        exact .inr (.inr (by simpa using hlost))
      · exact .inl (by omega)
    · rw [update_of_ne hh] at hq
      obtain ⟨hlt, hqh, hrefs⟩ := h.slots handle' q hq
      rw [hold q hlt, hframes]
      exact ⟨by omega, hqh, hrefs⟩
  · have hcount : s'.strongCount handle' = s.strongCount handle' +
        (if handle = handle' then (if 0 < strong then 1 else 0) else 0) := by
      unfold strongCount
      rw [hmade, range_succ, countP_append]
      congr 1
      · refine countP_congr fun q hq => ?_
        rw [hold q (mem_range.1 hq)]
      · rw [countP_singleton, hnew, hhandle, hfreed, hstrong]
        by_cases hh : handle = handle' <;> by_cases h0 : 0 < strong <;> simp [hh, h0]
    have hacq := h.acquired handle'
    rw [hsame, hcount]
    simp only [fun command => count_append handle handle' _ command hcommands, told]
    by_cases h0 : 0 < strong <;> by_cases hh : handle = handle' <;> simp [h0, hh] <;> omega
  · have hcount : s'.liveCount handle' = s.liveCount handle' +
        (if handle = handle' then 1 else 0) := by
      unfold liveCount
      rw [hmade, range_succ, countP_append]
      congr 1
      · refine countP_congr fun q hq => ?_
        rw [hold q (mem_range.1 hq)]
      · rw [countP_singleton, hnew, hhandle, hfreed]
        by_cases hh : handle = handle' <;> simp [hh]
    have hinc := h.increfed handle'
    rw [hsame, hcount]
    simp only [fun command => count_append handle handle' _ command hcommands, told]
    by_cases h0 : 0 < strong <;> by_cases hh : handle = handle' <;> simp [h0, hh] <;> omega

theorem Inv.clear : Inv { s with table := update s.table handle none } := by
  have hold : ∀ h' b, update s.table handle none h' = some b → s.table h' = some b := by
    intro h' b hb
    by_cases heq : h' = handle
    · rw [heq, update_self] at hb
      cases hb
    · rwa [update_of_ne heq] at hb
  refine ⟨fun b hb => ?_, h.fresh, h.frames, fun h' b hb => h.slots h' b (hold h' b hb), h.acquired,
    h.increfed, h.sound⟩
  have hc := h.counted b hb
  refine ⟨hc.weak, hc.strong, hc.range, hc.dying, fun hweak => ?_⟩
  show update s.table handle none _ = _
  rw [update_of_ne (h.handle_ne hslot hb hweak)]
  exact hc.cached hweak

end

/-! ### The operations -/

theorem Inv.lt_made (h : Inv s) (href : 0 < s.weakRefs b ∨ 0 < s.strongRefs b) : b < s.made := by
  by_contra hge
  obtain ⟨hw, hs⟩ := h.fresh b (by omega)
  omega

theorem Inv.of_slot (h : Inv s) (hslot : s.slot handle = some b) :
    b < s.made ∧ (s.proxies b).handle = handle ∧ 0 < (s.proxies b).weak := by
  obtain ⟨htable, hweak⟩ := Option.filter_eq_some_iff.1 hslot
  obtain ⟨hb, hhandle, -⟩ := h.slots handle b htable
  exact ⟨hb, hhandle, by simpa using hweak⟩

theorem initial_range :
    0 ≤ initialPrimaryValue ∧ initialPrimaryValue ≤ initialPrimaryValue := by decide

theorem inv_getWeak (h : Inv s) (handle : ℕ) (newOk weakOk : Bool) :
    Inv (s.getWeak handle newOk weakOk) := by
  unfold getWeak
  cases hslot : s.slot handle with
  | none =>
    cases newOk with
    | false => exact h.clear hslot
    | true =>
      cases weakOk with
      | true | false => exact h.create hslot rfl rfl rfl rfl initial_range rfl (.inl ⟨rfl, rfl⟩)
  | some b =>
    obtain ⟨hb, -, hweak⟩ := h.of_slot hslot
    have hrange := (h.counted b hb).range
    cases weakOk with
    | true =>
      have hboth := Proxy.kept_incWeak.comp Proxy.kept_incWeak
      refine h.alive hb [] [] [] (((At.refl s b).modify (hboth.comp Proxy.kept_decWeak)).own _ _)
        hweak (by simp) rfl rfl (by simp) (by simp) ⟨s.frames, .refl _, .refl _⟩ (by simp)
        (by simp) ?_ ?_ ?_ ?_ ?_ <;> simp [told]
      all_goals omega
    | false =>
      refine h.alive hb [] [] [] ((At.refl s b).modify (Proxy.kept_incWeak.comp Proxy.kept_decWeak))
        hweak (by simp) rfl rfl (by simp) (by simp) ⟨s.frames, .refl _, .refl _⟩ (by simp)
        (by simp) ?_ ?_ ?_ ?_ ?_ <;> simp [told]
      all_goals omega

/-- **The region of `GetStrongProxyForHandle`**: the second new reference is not the first one, and
goes again. -/
theorem getStrong_some {handle : ℕ} {newOk : Bool} (hslot : s.slot handle = some b)
    (hrange : 0 ≤ (s.proxies b).strong ∧ (s.proxies b).strong ≤ initialPrimaryValue)
    (hroom : (s.proxies b).strong ≠ initialPrimaryValue - 1) :
    s.getStrong handle newOk =
      ({ s.modify b (fun p => p.incStrong.incWeak) with
        commands := s.commands ++ (if (s.proxies b).strongCount = 0 then [Command.acquire]
          else []).map (·, (s.proxies b).handle) } : Proxies).own b (s.strongRefs b + 1)
        (s.weakRefs b) := by
  have hone : (1 : ℤ) ≠ initialPrimaryValue := by decide
  unfold getStrong
  rw [hslot]
  by_cases hinit : (s.proxies b).strong = initialPrimaryValue
  · simp [forceIncStrong, incStrong, decStrong, modify, write, Proxy.incWeak, Proxy.incStrong,
      Proxy.decWeak, Proxy.decStrong, Proxy.strongCount, hinit, hone]
  by_cases h0 : (s.proxies b).strong = 0
  · simp [forceIncStrong, incStrong, decStrong, modify, write, Proxy.incWeak, Proxy.incStrong,
      Proxy.decWeak, Proxy.decStrong, Proxy.strongCount, h0, hone]
  · have hagain : (s.proxies b).strong + 1 ≠ 0 ∧ (s.proxies b).strong + 1 ≠ initialPrimaryValue ∧
        (s.proxies b).strong + 1 + 1 ≠ 1 ∧ ¬ (s.proxies b).strong + 1 + 1 < 1 := by omega
    simp [forceIncStrong, incStrong, decStrong, modify, Proxy.incWeak, Proxy.incStrong,
      Proxy.decWeak, Proxy.decStrong, Proxy.strongCount, hinit, h0, hagain]

theorem inv_getStrong (h : Inv s) (handle : ℕ) (newOk : Bool)
    (hroom : ∀ b, s.slot handle = some b → (s.proxies b).strong ≠ initialPrimaryValue - 1) :
    Inv (s.getStrong handle newOk) := by
  unfold getStrong
  cases hslot : s.slot handle with
  | none =>
    cases newOk with
    | false => exact h.clear hslot
    | true =>
      exact h.create hslot rfl rfl rfl rfl ⟨Int.zero_le_ofNat 1, by show (1 : ℤ) ≤ _; decide⟩ rfl
        (.inr ⟨rfl, Nat.one_pos⟩)
  | some b =>
    obtain ⟨hb, -, hweak⟩ := h.of_slot hslot
    have hcounted := h.counted b hb
    have hrange := hcounted.range
    obtain ⟨hcount, hpos, hlt⟩ := Proxy.incStrong_spec hrange (hroom b hslot)
    have hsame := @getStrong_some s b handle newOk hslot hrange (hroom b hslot)
    unfold getStrong at hsame
    rw [hslot] at hsame
    rw [hsame]
    have hnonneg := hcounted.strong
    refine h.alive hb [] [] (if (s.proxies b).strongCount = 0 then [Command.acquire] else []) ?_
      hweak
      (by simp) rfl rfl (by simp) ?_ ⟨s.frames, .refl _, .refl _⟩ (by simp) (by simp) ?_ ?_ ?_ ?_ ?_
    · apply At.own
      exact ((At.refl s b).modify (Proxy.kept_incStrong.comp Proxy.kept_incWeak)).same rfl rfl rfl
        rfl
    · split <;> simp
    · simp
      omega
    · simp
      omega
    · simp [hcount]
      omega
    · simp
      omega
    · simp only [own_proxies, modify_proxies, Proxy.incWeak_strongCount, hcount, told]
      by_cases h0 : (s.proxies b).strongCount = 0
      · simp [h0]
      · have hp : 0 < (s.proxies b).strongCount ∧ 0 < (s.proxies b).strongCount + 1 := by omega
        simp [h0, hp]

/-- **`IncWeak`**, and the first step of `IncStrong` and of `AttemptIncStrong`. -/
theorem inv_begin (h : Inv s) {strong weak : ℕ} {into : List Stage}
    (href : 0 < s.weakRefs b ∨ 0 < s.strongRefs b)
    (hinto : ∀ f ∈ into, f.proxy = b ∧ f.destroys = 0 ∧ f.inits = false)
    (hweak : 1 + s.strongRefs b + s.weakRefs b = (into.map Stage.weak).sum + strong + weak)
    (hstrong : s.strongRefs b = (into.map Stage.strong).sum + strong)
    (hdue : (into.map Stage.due).sum = 0) :
    Inv { (s.own b strong weak).modify b Proxy.incWeak with frames := s.frames ++ into } := by
  obtain ⟨w, hw⟩ : ∃ w, (into.map Stage.weak).sum = w := ⟨_, rfl⟩
  obtain ⟨st, hst⟩ : ∃ st, (into.map Stage.strong).sum = st := ⟨_, rfl⟩
  rw [hw] at hweak
  rw [hst] at hstrong
  have hb := h.lt_made href
  have hcounted := h.counted b hb
  have hpos : 0 < (s.proxies b).weak := by
    rw [hcounted.weak]
    omega
  refine h.alive hb [] into []
    ((((At.refl s b).own _ _).modify Proxy.kept_incWeak).same rfl rfl rfl rfl) hpos ?_ rfl rfl
    (by simp) (by simp) ⟨s.frames, .refl _, perm_append_comm⟩ (by simp) hinto ?_ ?_ ?_ ?_ ?_
  · simp
  · simp
    omega
  · simp [hw]
    omega
  · simp [hst]
    omega
  · simpa using hcounted.range
  · simp [told, hdue]

/-- **`DecWeak`**, of a reference that is nobody's any more. -/
theorem inv_dropWeak (h : Inv s) {t : Proxies} {out : List Stage} (hb : b < s.made) (hat : At s t b)
    (hproxy : t.proxies b = s.proxies b) (htable : t.table = s.table)
    (hcommands : t.commands = s.commands) (hfatal : t.fatal = s.fatal)
    (hframes : s.frames.Perm (out ++ t.frames))
    (hout : ∀ f ∈ out, f.proxy = b ∧ f.destroys = 0)
    (hsums : (out.map Stage.strong).sum = 0 ∧ (out.map Stage.due).sum = 0 ∧
      (out.map Stage.destroys).sum = 0 ∧ (out.map Stage.frees).sum = 0)
    (hweak : (out.map Stage.weak).sum + s.strongRefs b + s.weakRefs b =
      1 + t.strongRefs b + t.weakRefs b)
    (hstrong : t.strongRefs b = s.strongRefs b) : Inv (t.dropWeak b) := by
  have hcounted := h.counted b hb
  have hpos : 1 ≤ (s.proxies b).weak := by
    have hself : (out.map Stage.weak).sum ≤ sumOf (· = b) Stage.weak s.frames := by
      rw [sumOf_perm hframes, sumOf_append, sumOf_of fun f hf => (hout f hf).1]
      simp
    rw [hcounted.weak]
    omega
  obtain ⟨w, hw⟩ : ∃ w, (out.map Stage.weak).sum = w := ⟨_, rfl⟩
  rw [hw] at hweak
  have hnot : Stage.expunging b ∉ out := fun hmem => absurd (hout _ hmem).2 Nat.one_ne_zero
  unfold dropWeak
  rw [hproxy]
  by_cases hlast : (s.proxies b).weak = 1
  · -- the last reference
    simp only [if_pos hlast]
    refine h.change hb out [.expunging b] [] ((hat.modify Proxy.kept_decWeak).goOn _) ?_
      ⟨t.frames, hframes, perm_append_comm⟩ (fun f hf => (hout f hf).1)
      (by simp [goOn, hcommands]) (fun _ => .inl (by simp [goOn, htable]))
      (fun hmem => absurd hmem hnot) (by simp [goOn, hfatal, h.sound])
    constructor <;> simp [goOn, hw, hproxy, hsums, Stage.destroys, Stage.weak, Stage.strong,
      Stage.due, Stage.frees, Stage.proxy, Stage.inits, told, hlast, hstrong, hcounted.range]
    · omega
    · omega
  · simp only [if_neg hlast, if_neg (by omega : ¬ (s.proxies b).weak < 1)]
    refine h.alive hb out [] [] (hat.modify Proxy.kept_decWeak) (by omega) (by simp [hproxy])
      (by simp [htable]) (by simp [hfatal]) (by simp [hcommands]) (by simp)
      ⟨t.frames, hframes, .refl _⟩ hout (by simp) ?_ ?_ ?_ ?_ ?_
    · simp [hproxy]
      omega
    · simp [hw, hproxy]
      omega
    · simp [hproxy, hsums, hstrong]
    · simpa [hproxy] using hcounted.range
    · simp [hproxy, hsums, told]

theorem inv_dropStrong (h : Inv s) (href : 0 < s.strongRefs b) :
    Inv ((s.own b (s.strongRefs b - 1) (s.weakRefs b)).dropStrong b) := by
  have hb := h.lt_made (.inr href)
  have hcounted := h.counted b hb
  have hstrong := hcounted.strong
  have hweak := hcounted.weak
  obtain ⟨hcount, hcount', hge, hlt⟩ := Proxy.decStrong_spec hcounted.range (by omega)
  obtain ⟨f, hf, hgoes⟩ : ∃ f, (s.own b (s.strongRefs b - 1) (s.weakRefs b)).dropStrong b =
      ((s.own b (s.strongRefs b - 1) (s.weakRefs b)).modify b Proxy.decStrong).goOn f ∧
      (f = .finishing b ∧ (s.proxies b).strong = 1 ∨ f = .decWeak b ∧ (s.proxies b).strong ≠ 1) := by
    by_cases hlast : (s.proxies b).strong = 1
    · exact ⟨.finishing b, if_pos hlast, .inl ⟨rfl, hlast⟩⟩
    · exact ⟨.decWeak b, (if_neg hlast).trans (if_neg (by omega : ¬ (s.proxies b).strong < 1)),
        .inr ⟨rfl, hlast⟩⟩
  -- the thread goes on with a weak reference, and owes the driver if the strong one was the last
  obtain ⟨hfb, hfw, hfs, hdestroys, hinits, hdue⟩ : f.proxy = b ∧ f.weak = 1 ∧ f.strong = 0 ∧
      f.destroys = 0 ∧ f.inits = false ∧ f.due = if (s.proxies b).strong = 1 then 1 else 0 := by
    rcases hgoes with ⟨rfl, hlast⟩ | ⟨rfl, hlast⟩
    · exact ⟨rfl, rfl, rfl, rfl, rfl, (if_pos hlast).symm⟩
    · exact ⟨rfl, rfl, rfl, rfl, rfl, (if_neg hlast).symm⟩
  rw [hf]
  refine h.alive hb [] [f] [] ((((At.refl s b).own _ _).modify Proxy.kept_decStrong).goOn _)
    (by omega) (by simp [goOn]) rfl rfl (by simp [goOn]) (by simp)
    ⟨s.frames, .refl _, perm_append_comm⟩ (by simp) (by simp [hfb, hdestroys, hinits])
    ?_ ?_ ?_ ?_ ?_
  · simp [goOn]
    omega
  · simp [goOn, hfw]
    omega
  · simp [goOn, hfs, hcount']
    omega
  · simp [goOn]
    omega
  · by_cases hlast : (s.proxies b).strong = 1
    · simp [goOn, hdue, told, hcount', hcount, hlast]
    · have hp : 0 < (s.proxies b).strongCount ∧ 1 < (s.proxies b).strongCount := by omega
      simp [goOn, hdue, told, hcount', hlast, hp]

theorem Inv.of_frame (h : Inv s) {f : Stage} {rest : List Stage} {weak strong : ℕ}
    (hf : s.frames.Perm (f :: rest)) (hfb : f.proxy = b) (hfw : f.weak = weak)
    (hfs : f.strong = strong) : b < s.made ∧ s.Counted b ∧ weak ≤ (s.proxies b).weak ∧
      strong ≤ (s.proxies b).strongCount := by
  subst hfb hfw hfs
  have hmem := hf.mem_iff.2 mem_cons_self
  have hb := (h.frames f hmem).1
  have hc := h.counted f.proxy hb
  have hweak := @le_sumOf (· = f.proxy) Stage.weak _ _ hmem (by simp)
  have hstrong := @le_sumOf (· = f.proxy) Stage.strong _ _ hmem (by simp)
  refine ⟨hb, hc, ?_, ?_⟩
  · rw [hc.weak]
    omega
  · rw [hc.strong]
    omega

theorem inv_goOn (h : Inv s) {rest : List Stage} {f f' : Stage} {command : Option Command}
    (hf : s.frames.Perm (f :: rest)) (hsame : f'.proxy = f.proxy) (hweak : f'.weak = f.weak)
    (hpos : 0 < f.weak) (hstrong : f'.strong = f.strong)
    (hdestroys : f.destroys = 0 ∧ f'.destroys = 0) (hinits : f'.inits = false)
    (hcommand : ∀ c ∈ command, c ≠ .increfs ∧ c ≠ .decrefs)
    (hdue : told command.toList .acquire + told command.toList .attempted -
      told command.toList .release + f.due = f'.due)
    (hs' : s' = { s with
      frames := rest ++ [f']
      commands := s.commands ++ command.toList.map (·, (s.proxies f.proxy).handle) }) : Inv s' := by
  obtain ⟨hb, hc, hle, -⟩ := h.of_frame hf rfl rfl rfl
  subst hs'
  refine h.alive hb [f] [f'] command.toList ((At.refl s _).same rfl rfl rfl rfl) (by omega) rfl rfl
    rfl rfl (by simpa using hcommand) ⟨rest, hf, perm_append_comm⟩ (by simp [hdestroys])
    (by simp [hsame, hdestroys, hinits]) ?_ ?_ ?_ hc.range ?_
  · show 0 < (s.proxies f.proxy).weak
    omega
  · simp [hweak]
  · simp [hstrong]
  · simp
    omega

section

variable {rest : List Stage}

theorem inv_add (h : Inv s) {f : Stage} (hf : s.frames.Perm (f :: rest)) (hfb : f.proxy = b)
    (hweak : f.weak = 2) (hle : f.strong ≤ 1) (hdestroys : f.destroys = 0)
    (hroom : (s.proxies b).strong ≠ initialPrimaryValue - 1)
    (hdue : (if 0 < (s.proxies b).strongCount then 1 else 0) + f.due = 1) :
    Inv (({ s with frames := rest }.modify b Proxy.incStrong).own b (s.strongRefs b + (f.strong + 1))
      (s.weakRefs b + (1 - f.strong))) := by
  subst hfb
  obtain ⟨hb, hc, htwo, -⟩ := h.of_frame hf rfl hweak rfl
  obtain ⟨hcount, hpos, hlt⟩ := Proxy.incStrong_spec hc.range hroom
  have hnonneg := hc.strong
  refine h.alive hb [f] [] [] ?_ (by omega) (by simp) rfl rfl (by simp) (by simp)
    ⟨rest, hf, .refl _⟩ (by simp [hdestroys]) (by simp) ?_ ?_ ?_ ?_ ?_
  · apply At.own
    have hat : At s { s with frames := rest } f.proxy := (At.refl s _).same rfl rfl rfl rfl
    exact hat.modify Proxy.kept_incStrong
  · simp
    omega
  · simp [hweak]
    omega
  · simp [hcount]
    omega
  · simpa using ⟨hpos.le, hlt.le⟩
  · have hp : 0 < (s.proxies f.proxy).strongCount + 1 := by omega
    simp only [own_proxies, modify_proxies, hcount, if_pos hp, told, count_nil, map_cons,
      map_nil, sum_cons, sum_nil]
    omega

section

variable (h : Inv s) (granted : Bool)
include h granted

theorem inv_copying (hf : s.frames.Perm (.copying b :: rest))
    (hroom : (s.proxies b).strong ≠ initialPrimaryValue - 1) :
    Inv ({ s with frames := rest }.resume granted (.copying b)) := by
  obtain ⟨-, hc, -, hpos⟩ := h.of_frame (b := b) hf rfl rfl (rfl : _ = 1)
  obtain ⟨hvalue, -, -, -⟩ := Proxy.decStrong_spec hc.range hpos
  have hinit : (s.proxies b).strong ≠ initialPrimaryValue := by
    intro hinit
    unfold Proxy.strongCount at hpos
    rw [if_pos hinit] at hpos
    omega
  have hstate : { s with frames := rest }.resume granted (.copying b) =
      ({ s with frames := rest }.modify b Proxy.incStrong).own b (s.strongRefs b + 2)
        (s.weakRefs b) :=
    (if_neg (by omega : ¬ (s.proxies b).strong = 0)).trans (if_neg hinit)
  rw [hstate]
  exact inv_add h hf rfl rfl le_rfl rfl hroom (congrArg (· + 0) (if_pos (by omega)))

theorem inv_promoting (hf : s.frames.Perm (.promoting b :: rest))
    (hroom : (s.proxies b).strong ≠ initialPrimaryValue - 1) :
    Inv ({ s with frames := rest }.resume granted (.promoting b)) := by
  obtain ⟨-, hc, -, -⟩ := h.of_frame (b := b) hf rfl rfl rfl
  have hrange := hc.range
  by_cases hpos : 0 < (s.proxies b).strong ∧ (s.proxies b).strong < initialPrimaryValue
  · have hvalue : (s.proxies b).strongCount = (s.proxies b).strong := if_neg hpos.2.ne
    have hincr : (s.proxies b).incStrong =
        { s.proxies b with strong := (s.proxies b).strong + 1 } := by
      unfold Proxy.incStrong
      rw [if_neg hpos.2.ne]
    have hstate : { s with frames := rest }.resume granted (.promoting b) =
        ({ s with frames := rest }.modify b Proxy.incStrong).own b (s.strongRefs b + 1)
          (s.weakRefs b + 1) := by
      refine (if_pos hpos).trans ?_
      unfold promoted modify
      simp only [hincr]
    rw [hstate]
    exact inv_add h hf rfl rfl (Nat.zero_le 1) rfl hroom (congrArg (· + 0) (if_pos (by omega)))
  · have hother : (s.proxies b).strong ≤ 0 ∨ (s.proxies b).strong = initialPrimaryValue := by omega
    have hstate : { s with frames := rest }.resume granted (.promoting b) =
        { s with frames := rest }.goOn (.attempting b) :=
      (if_neg hpos).trans (if_pos hother)
    rw [hstate]
    exact @inv_goOn s _ h _ _ (.attempting b) none hf rfl rfl Nat.two_pos rfl ⟨rfl, rfl⟩ rfl
      (by simp) rfl (by simp [goOn])

theorem inv_attempted (hf : s.frames.Perm (.attempted b :: rest))
    (hroom : (s.proxies b).strong ≠ initialPrimaryValue - 1)
    (hinit : (s.proxies b).strong ≠ initialPrimaryValue) :
    Inv ({ s with frames := rest }.resume granted (.attempted b)) := by
  obtain ⟨hb, hc, hweak, -⟩ := h.of_frame (b := b) hf rfl (rfl : _ = 2) rfl
  have hrange := hc.range
  obtain ⟨hcount, hpos', hlt⟩ := Proxy.incStrong_spec hc.range hroom
  have hvalue : (s.proxies b).strongCount = (s.proxies b).strong := if_neg hinit
  by_cases hpos : 0 < (s.proxies b).strong
  · -- the reference that the driver has given is not needed
    have hbetween : 0 < (s.proxies b).strong ∧ (s.proxies b).strong < initialPrimaryValue := by
      omega
    have hstate : { s with frames := rest }.resume granted (.attempted b) =
        ({ s with frames := rest }.modify b Proxy.incStrong).goOn (.finishingSpare b) :=
      if_pos hbetween
    have hp : 0 < (s.proxies b).strongCount ∧ 0 < (s.proxies b).strongCount + 1 := by omega
    rw [hstate]
    refine h.alive hb [.attempted b] [.finishingSpare b] [] ?_ (by omega) (by simp [goOn]) rfl rfl
      (by simp [goOn]) (by simp) ⟨rest, hf, perm_append_comm⟩
      (by simp [Stage.proxy, Stage.destroys]) (by simp [Stage.proxy, Stage.destroys, Stage.inits])
      ?_ ?_ ?_ ?_ ?_
    · apply At.goOn
      have hat : At s { s with frames := rest } b := (At.refl s b).same rfl rfl rfl rfl
      exact hat.modify Proxy.kept_incStrong
    · simp [goOn]
      omega
    · simp [goOn, Stage.weak]
    · simp [goOn, Stage.strong, hcount]
    · simpa [goOn] using ⟨hpos'.le, hlt.le⟩
    · simp [goOn, Stage.due, told, hcount, hp]
  · have hstate : { s with frames := rest }.resume granted (.attempted b) =
        ({ s with frames := rest }.modify b Proxy.incStrong).own b (s.strongRefs b + 1)
          (s.weakRefs b + 1) :=
      (if_neg fun hbetween => hpos hbetween.1).trans (if_neg hinit)
    rw [hstate]
    exact inv_add h hf rfl rfl (Nat.zero_le 1) rfl hroom (congrArg (· + 1) (if_neg (by omega)))

theorem inv_waiting (hf : s.frames.Perm (.waiting b :: rest)) :
    Inv ({ s with frames := rest }.resume granted (.waiting b)) := by
  obtain ⟨hb, hc, hweak, -⟩ := h.of_frame (b := b) hf rfl (rfl : _ = 2) rfl
  cases granted with
  | true =>
    exact @inv_goOn s _ h _ _ (.attempted b) (some .attempted) hf rfl rfl Nat.two_pos rfl ⟨rfl, rfl⟩
      rfl (by simp) rfl rfl
  | false =>
    have hstate : { s with frames := rest }.resume false (.waiting b) =
        ({ s with frames := rest }.own b (s.strongRefs b) (s.weakRefs b + 1)).goOn (.decWeak b) :=
      rfl
    rw [hstate]
    refine h.alive hb [.waiting b] [.decWeak b] [] ?_ (by omega) rfl rfl rfl (by simp [goOn])
      (by simp) ⟨rest, hf, perm_append_comm⟩ (by simp [Stage.proxy, Stage.destroys])
      (by simp [Stage.proxy, Stage.destroys, Stage.inits]) ?_ ?_ ?_ hc.range ?_
    · apply At.goOn
      apply At.own
      exact (At.refl s b).same rfl rfl rfl rfl
    · show 0 < (s.proxies b).weak
      omega
    · simp [goOn, Stage.weak]
      omega
    · simp [goOn, Stage.strong]
    · show (told [] .acquire + told [] .attempted - told [] .release +
        (if 0 < (s.proxies b).strongCount then 1 else 0 : ℕ) + (0 : ℕ) : ℤ) =
          (if 0 < (s.proxies b).strongCount then 1 else 0 : ℕ) + (0 : ℕ)
      simp [told]

theorem inv_finishingSpare (hf : s.frames.Perm (.finishingSpare b :: rest)) :
    Inv ({ s with frames := rest }.resume granted (.finishingSpare b)) := by
  obtain ⟨hb, hc, hweak, hstrong⟩ := h.of_frame (b := b) hf rfl (rfl : _ = 2) (rfl : _ = 1)
  have hstate : { s with frames := rest }.resume granted (.finishingSpare b) =
      ({ s with frames := rest }.write .release (s.proxies b).handle).own b (s.strongRefs b + 1)
        (s.weakRefs b + 1) := rfl
  rw [hstate]
  refine h.alive hb [.finishingSpare b] [] [.release] ?_ (by omega) rfl rfl rfl (by simp [write])
    (by simp) ⟨rest, hf, .refl _⟩ (by simp [Stage.proxy, Stage.destroys]) (by simp) ?_ ?_ ?_
    hc.range ?_
  · apply At.own
    apply At.write
    exact (At.refl s b).same rfl rfl rfl rfl
  · show 0 < (s.proxies b).weak
    omega
  · simp [write, Stage.weak]
    omega
  · simp [write, Stage.strong]
    omega
  · have hp : 0 < (s.proxies b).strongCount := by omega
    simp [write, Stage.due, told, hp]

end

/-- A proxy in its destructor has no references, and its memory has not been freed. -/
theorem Inv.dying (h : Inv s) {f : Stage} (hf : s.frames.Perm (f :: rest)) (hfb : f.proxy = b)
    (hdestroys : f.destroys = 1) : b < s.made ∧ s.Counted b ∧ (s.proxies b).weak = 0 ∧
      (s.proxies b).freed = false ∧ (s.proxies b).strongCount = 0 := by
  subst hfb
  obtain ⟨hb, hc, -, -⟩ := h.of_frame hf rfl rfl rfl
  have hd := hc.dying
  have hle := @le_sumOf (· = f.proxy) Stage.destroys _ _ (hf.mem_iff.2 mem_cons_self) (by simp)
  rw [hdestroys] at hle
  have hzero : (s.proxies f.proxy).weak = 0 := by
    by_contra hne
    rw [if_neg hne] at hd
    omega
  rw [if_pos hzero] at hd
  refine ⟨hb, hc, hzero, ?_, hc.strong_of_weak hzero⟩
  rw [← Bool.not_eq_true]
  intro hfreed
  rw [hfreed, Bool.toNat_true] at hd
  omega

section

variable (h : Inv s) (granted : Bool)
include h granted

theorem inv_expunging (hf : s.frames.Perm (.expunging b :: rest)) :
    Inv ({ s with frames := rest }.resume granted (.expunging b)) := by
  obtain ⟨hb, hc, hzero, hfreed, hstrong⟩ := h.dying (b := b) hf rfl rfl
  unfold resume
  refine h.change hb [.expunging b] [.decrefing b] [] ((At.refl s b).same rfl rfl rfl rfl) ?_
    ⟨rest, hf, perm_append_comm⟩ (by simp [Stage.proxy]) (by simp [goOn]) ?_ ?_ h.sound
  · constructor <;> simp [goOn, Stage.weak, Stage.strong, Stage.destroys, Stage.due, Stage.frees,
      Stage.proxy, Stage.inits, told, hzero, hc.range]
  · intro handle
    by_cases hslot : s.table (s.proxies b).handle = some b
    · by_cases hh : handle = (s.proxies b).handle
      · right
        simp [goOn, hslot, hh, hzero]
      · left
        simp [goOn, hslot, hh]
    · left
      simp [goOn, hslot]
  · refine fun _ => .inr fun handle => ?_
    by_cases hh : handle = (s.proxies b).handle
    · by_cases hslot : s.table (s.proxies b).handle = some b
      · simp [goOn, hslot, hh]
      · simp [goOn, hslot, hh]
    · -- the slot of another handle
      have hother : s.table handle ≠ some b := fun heq => hh (h.slots handle b heq).2.1.symm
      by_cases hslot : s.table (s.proxies b).handle = some b
      · simpa [goOn, hslot, hh] using hother
      · simpa [goOn, hslot] using hother

theorem inv_decrefing (hf : s.frames.Perm (.decrefing b :: rest)) :
    Inv ({ s with frames := rest }.resume granted (.decrefing b)) := by
  obtain ⟨hb, hc, hzero, hfreed, hstrong⟩ := h.dying (b := b) hf rfl rfl
  unfold resume
  refine h.change hb [.decrefing b] [.freeing b] [.decrefs] ?_ ?_ ⟨rest, hf, perm_append_comm⟩
    (by simp [Stage.proxy]) (by simp [goOn, write]) (fun _ => .inl rfl) (by simp) h.sound
  · exact (At.refl s b).same rfl rfl rfl rfl
  · constructor <;> simp [goOn, write, Stage.weak, Stage.strong, Stage.destroys, Stage.due,
      Stage.frees, Stage.proxy, Stage.inits, told, hzero, hfreed, hstrong, hc.range]

theorem inv_freeing (hf : s.frames.Perm (.freeing b :: rest)) :
    Inv ({ s with frames := rest }.resume granted (.freeing b)) := by
  obtain ⟨hb, hc, hzero, hfreed, hstrong⟩ := h.dying (b := b) hf rfl rfl
  have hat : At s { s with frames := rest } b := (At.refl s b).same rfl rfl rfl rfl
  unfold resume
  have hkept : Proxy.Kept fun p => { p with freed := true } := fun _ => ⟨rfl, rfl⟩
  refine h.change hb [.freeing b] [] [] (hat.modify hkept) ?_ ⟨rest, hf, .refl _⟩
    (by simp [Stage.proxy]) (by simp) (fun _ => .inl rfl) (by simp) h.sound
  have hcount : ∀ weak, (⟨(s.proxies b).handle, (s.proxies b).strong, weak, true,
      (s.proxies b).lost⟩ : Proxy).strongCount = 0 := fun _ => hstrong
  constructor <;> simp [Stage.weak, Stage.strong, Stage.destroys, Stage.due, Stage.frees, told,
    hzero, hfreed, hstrong, hcount, hc.range]

theorem inv_resume {f : Stage}
    (hobserves : match f with
      | .copying b | .promoting b => (s.proxies b).strong ≠ initialPrimaryValue - 1
      | .attempted b => (s.proxies b).strong ≠ initialPrimaryValue - 1 ∧
        (s.proxies b).strong ≠ initialPrimaryValue
      | _ => True) (hf : s.frames.Perm (f :: rest)) :
    Inv ({ s with frames := rest }.resume granted f) := by
  have hmem := hf.mem_iff.2 mem_cons_self
  cases f with
  | finishing b =>
    exact @inv_goOn s _ h _ _ (.decWeak b) (some .release) hf rfl rfl Nat.one_pos rfl ⟨rfl, rfl⟩
      rfl (by simp) rfl rfl
  | decWeak b =>
    exact @inv_dropWeak s b h { s with frames := rest } [.decWeak b] (h.frames _ hmem).1
      ((At.refl s b).same rfl rfl rfl rfl) rfl rfl rfl rfl hf
      (by simp [Stage.proxy, Stage.destroys])
      ⟨rfl, rfl, rfl, rfl⟩ (by simp [Stage.weak]) rfl
  | expunging b => exact inv_expunging h granted hf
  | decrefing b => exact inv_decrefing h granted hf
  | freeing b => exact inv_freeing h granted hf
  | copying b => exact inv_copying h granted hf hobserves
  | promoting b => exact inv_promoting h granted hf hobserves
  | attempting b =>
    exact @inv_goOn s _ h _ _ (.waiting b) (some .attemptAcquire) hf rfl rfl Nat.two_pos rfl
      ⟨rfl, rfl⟩ rfl (by simp) rfl rfl
  | waiting b => exact inv_waiting h granted hf
  | attempted b => exact inv_attempted h granted hf hobserves.1 hobserves.2
  | finishingSpare b => exact inv_finishingSpare h granted hf
  | initCopied b => cases (h.frames _ hmem).2
  | initPromoted b => cases (h.frames _ hmem).2

end

end

/-- **A step that observes it** keeps what is kept. -/
theorem inv_step (h : Inv s) {a : Action} (hobserves : Observes s a) (hstep : step s a = some s') :
    Inv s' := by
  cases a with
  | getStrong handle newOk =>
    obtain ⟨⟩ := hstep
    exact inv_getStrong h handle newOk hobserves
  | getWeak handle newOk weakOk =>
    obtain ⟨⟩ := hstep
    exact inv_getWeak h handle newOk weakOk
  | incStrong b =>
    obtain ⟨hnone, rfl⟩ : s.strongRefs b ≠ 0 ∧ _ := by simpa [step] using hstep
    have hbegin := @inv_begin s b h (s.strongRefs b - 1) (s.weakRefs b) [.copying b]
    refine hbegin (.inr (by omega)) (by simp [Stage.proxy, Stage.destroys, Stage.inits]) ?_ ?_ rfl
    · simp [Stage.weak]
      omega
    · simp [Stage.strong]
      omega
  | incWeak b =>
    obtain ⟨hsome, rfl⟩ : ¬ (s.strongRefs b = 0 ∧ s.weakRefs b = 0) ∧ _ := by
      simpa only [step, Option.ite_none_left_eq_some, Option.some.injEq] using hstep
    have hbegin := @inv_begin s b h (s.strongRefs b) (s.weakRefs b + 1) []
    simp only [append_nil] at hbegin
    exact hbegin (by omega) (by simp) (by simp; omega) (by simp) rfl
  | attemptIncStrong b =>
    obtain ⟨hsome, rfl⟩ : s.weakRefs b ≠ 0 ∧ _ := by simpa [step] using hstep
    have hbegin := @inv_begin s b h (s.strongRefs b) (s.weakRefs b - 1) [.promoting b]
    refine hbegin (.inl (by omega)) (by simp [Stage.proxy, Stage.destroys, Stage.inits]) ?_ ?_ rfl
    · simp [Stage.weak]
      omega
    · simp [Stage.strong]
  | decStrong b =>
    obtain ⟨hsome, rfl⟩ : s.strongRefs b ≠ 0 ∧ _ := by simpa [step] using hstep
    exact inv_dropStrong h (by omega)
  | decWeak b =>
    obtain ⟨hsome, rfl⟩ : s.weakRefs b ≠ 0 ∧ _ := by simpa [step] using hstep
    refine @inv_dropWeak s b h (s.own b (s.strongRefs b) (s.weakRefs b - 1)) []
      (h.lt_made (.inl (by omega))) ((At.refl s b).own _ _) rfl rfl rfl rfl (.refl _) (by simp)
      ⟨rfl, rfl, rfl, rfl⟩ ?_ (by simp)
    simp
    omega
  | resume thread granted =>
    obtain ⟨f, hf, rfl⟩ : ∃ f, s.frames[thread]? = some f ∧
        { s with frames := s.frames.eraseIdx thread }.resume granted f = s' := by
      obtain ⟨f, hf, heq⟩ := Option.bind_eq_some_iff.1 hstep
      exact ⟨f, hf, Option.some.inj heq⟩
    obtain ⟨hlt, hget⟩ := List.getElem?_eq_some_iff.1 hf
    refine inv_resume h granted (hobserves f hf) ?_
    rw [← hget]
    exact (getElem_cons_eraseIdx_perm hlt).symm

/-- **In every run whose steps observe it, the counts are exact.** -/
theorem accounted_of_observes : ∀ as, AllSteps step Observes init as →
    AllStates step Accounted init as := by
  intro as hall
  have himp : ∀ s, Inv s → Accounted s := fun _ hinv => hinv.accounted
  refine AllStates.imp himp as init ?_
  exact AllSteps.states (fun _ _ _ hinv hstep hobserves => inv_step hinv hobserves hstep) as init
    inv_init hall

/-- A strong reference that is taken and dropped, to the end of the destructor. -/
theorem accounted_of_observes_one : AllStates step Accounted init [.getStrong 7 true, .decStrong 0,
    .resume 0 true, .resume 0 true, .resume 0 true, .resume 0 true, .resume 0 true] := by
  apply accounted_of_observes
  refine .cons rfl (fun _ h => nomatch h) (.cons rfl trivial ?_)
  -- `FinishAtom`, `DecWeak` and the destructor
  refine .cons rfl (fun f h => ?_) (.cons rfl (fun f h => ?_) (.cons rfl (fun f h => ?_)
    (.cons rfl (fun f h => ?_) (.cons rfl (fun f h => ?_) trivial))))
  all_goals
    obtain ⟨⟩ := h
    trivial

/-- A weak reference that is promoted before there was a first strong reference. The driver is asked
for a reference, and is told that there is one. -/
theorem promoted_acquires : ¬ ∀ as, AllStates step Accounted init as := by
  intro h
  have hlast := (h [.getWeak 0 true true, .attemptIncStrong 0, .resume 0 true, .resume 0 true,
    .resume 0 true, .resume 0 true, .resume 0 true]).last rfl
  exact absurd (hlast.acquired rfl 0) (by decide)

end Proxies

end OpenBinder
