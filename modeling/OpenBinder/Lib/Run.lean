import Mathlib.Data.List.Basic

/-!
# Runs of a system

A system takes steps, each for an action and some of them not enabled. A run is a list of
actions. `AllStates` and `AllSteps` say something of every state and of every step of a run.

* `allStates_iff_allSteps`: what holds in every state is what every step observes, if an
  invariant implies it, is kept by the steps that observe it, and is enough to tell from the
  state after a step that the step did.
-/

namespace OpenBinder.Lib

variable {S A : Type*} {step : S → A → Option S}

/-- **Every state of a run** from a state has a property. -/
def AllStates (step : S → A → Option S) (P : S → Prop) : S → List A → Prop
  | s, [] => P s
  | s, a :: as => P s ∧ ∀ s', step s a = some s' → AllStates step P s' as

/-- **Every step of a run** from a state has a property. -/
def AllSteps (step : S → A → Option S) (Q : S → A → Prop) : S → List A → Prop
  | _, [] => True
  | s, a :: as => ∀ s', step s a = some s' → Q s a ∧ AllSteps step Q s' as

/-- The last state of a run. -/
def run (step : S → A → Option S) (s : S) (as : List A) : Option S := as.foldlM step s

variable {P I : S → Prop}

theorem AllStates.head {s : S} {as : List A} (h : AllStates step P s as) : P s := by
  cases as with
  | nil => exact h
  | cons a as => exact h.1

theorem AllStates.last {as : List A} : ∀ {s s' : S}, AllStates step P s as →
    run step s as = some s' → P s' := by
  induction as with
  | nil =>
    intro s s' h hs
    obtain ⟨⟩ := hs
    exact h
  | cons a as ih =>
    intro s s' h hs
    unfold run at hs
    rw [List.foldlM_cons] at hs
    obtain ⟨s₁, h1, h2⟩ := Option.bind_eq_some_iff.1 hs
    exact ih (h.2 s₁ h1) h2

theorem AllSteps.cons {Q : S → A → Prop} {s s' : S} {a : A} {as : List A} (hs : step s a = some s')
    (hq : Q s a) (hrest : AllSteps step Q s' as) : AllSteps step Q s (a :: as) := by
  intro s'' hs'
  obtain ⟨⟩ := hs.symm.trans hs'
  exact ⟨hq, hrest⟩

/-- **An invariant that the observing steps keep** holds in every state of an observing run. -/
theorem AllSteps.states {P : S → Prop} {Q : S → A → Prop}
    (hkeep : ∀ s a s', P s → step s a = some s' → Q s a → P s') :
    ∀ (as : List A) (s : S), P s → AllSteps step Q s as → AllStates step P s as := by
  intro as
  induction as with
  | nil => intro s h _; exact h
  | cons a as ih =>
    intro s h hall
    refine ⟨h, fun s' hs => ?_⟩
    obtain ⟨hq, hrest⟩ := hall s' hs
    exact ih s' (hkeep s a s' h hs hq) hrest

/-- **An invariant that every step keeps** holds in every state of a run. -/
theorem AllStates.of_keep (hkeep : ∀ s a s', P s → step s a = some s' → P s') :
    ∀ (as : List A) (s : S), P s → AllStates step P s as := by
  intro as
  induction as with
  | nil => intro s h; exact h
  | cons a as ih => exact fun s h => ⟨h, fun s' hs => ih s' (hkeep s a s' h hs)⟩

theorem AllStates.imp {P' : S → Prop} (himp : ∀ s, P s → P' s) :
    ∀ (as : List A) (s : S), AllStates step P s as → AllStates step P' s as := by
  intro as
  induction as with
  | nil => intro s h; exact himp s h
  | cons a as ih =>
    intro s h
    exact ⟨himp s h.1, fun s' hs => ih s' (h.2 s' hs)⟩

/-- **What holds in every state** is what every step observes. -/
theorem allStates_iff_allSteps {Q : S → A → Prop} (himp : ∀ s, I s → P s)
    (hkeep : ∀ s a s', I s → step s a = some s' → Q s a → I s')
    (hback : ∀ s a s', I s → step s a = some s' → P s' → Q s a) :
    ∀ (as : List A) (s : S), I s → (AllStates step P s as ↔ AllSteps step Q s as) := by
  intro as s h
  constructor
  · induction as generalizing s with
    | nil => intro _; trivial
    | cons a as ih =>
      rintro ⟨-, hall⟩ s' hs
      have hq := hback s a s' h hs (hall s' hs).head
      exact ⟨hq, ih s' (hkeep s a s' h hs hq) (hall s' hs)⟩
  · intro hall
    exact AllStates.imp himp as s (AllSteps.states hkeep as s h hall)

/-- **What observing steps do**, as long as they keep an invariant. -/
theorem AllSteps.imp {Q Q' : S → A → Prop}
    (hstep : ∀ s a s', I s → step s a = some s' → Q s a → Q' s a ∧ I s') :
    ∀ (as : List A) (s : S), I s → AllSteps step Q s as → AllSteps step Q' s as := by
  intro as
  induction as with
  | nil => intro s _ _; trivial
  | cons a as ih =>
    intro s h hall s' hs
    obtain ⟨hq, hrest⟩ := hall s' hs
    obtain ⟨hq', h'⟩ := hstep s a s' h hs hq
    exact ⟨hq', ih s' h' hrest⟩

theorem allStates_congr {P' : S → Prop} (hiff : ∀ s, I s → (P s ↔ P' s))
    (hkeep : ∀ s a s', I s → step s a = some s' → I s') :
    ∀ (as : List A) (s : S), I s → (AllStates step P s as ↔ AllStates step P' s as) := by
  intro as
  induction as with
  | nil => intro s h; exact hiff s h
  | cons a as ih =>
    intro s h
    refine and_congr (hiff s h) (forall_congr' fun s' => forall_congr' fun hs => ?_)
    exact ih s' (hkeep s a s' h hs)

theorem allSteps_congr {I : S → Prop} {Q Q' : S → A → Prop} (hiff : ∀ s a, I s → (Q s a ↔ Q' s a))
    (hkeep : ∀ s a s', I s → step s a = some s' → I s') :
    ∀ (as : List A) (s : S), I s → (AllSteps step Q s as ↔ AllSteps step Q' s as) := by
  intro as
  induction as with
  | nil => intro s _; exact Iff.rfl
  | cons a as ih =>
    intro s h
    refine forall_congr' fun s' => forall_congr' fun hs => ?_
    exact and_congr (hiff s a h) (ih s' (hkeep s a s' h hs))

end OpenBinder.Lib
