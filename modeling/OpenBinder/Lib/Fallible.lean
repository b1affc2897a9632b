import Mathlib.Logic.Basic

/-!
# Computations that may stop

A computation changes a state and has a result, or stops with the state that it has come to.

* `Fallible`: the computations, with `pure`, `>>=`, `stop` and `when`.
* `Ends`: what holds of the result and the state, or of the reason and the state, with a rule for
  each way to build a computation.
* `ends_foldlM`: the rule of a loop over a list.
-/

namespace OpenBinder.Lib

/-- What changes a state, and may stop. -/
def Fallible (ε σ α : Type) := σ → Except ε α × σ

namespace Fallible

variable {ε σ α β γ : Type}

protected def pure (a : α) : Fallible ε σ α := fun s => (.ok a, s)

protected def bind (x : Fallible ε σ α) (f : α → Fallible ε σ β) : Fallible ε σ β := fun s =>
  match x s with
  | (.ok a, s) => f a s
  | (.error why, s) => (.error why, s)

instance : Monad (Fallible ε σ) where
  pure := Fallible.pure
  bind := Fallible.bind

/-- The computation stops. -/
def stop (why : ε) : Fallible ε σ α := fun s => (.error why, s)

/-- A computation that is only made under a condition. -/
def when (c : Prop) [Decidable c] (x : Fallible ε σ Unit) : Fallible ε σ Unit :=
  if c then x else pure ()

@[simp] theorem pure_run (a : α) (s : σ) : (pure a : Fallible ε σ α) s = (.ok a, s) := rfl

@[simp] theorem stop_run (why : ε) (s : σ) : (stop why : Fallible ε σ α) s = (.error why, s) := rfl

variable {s' : σ}

theorem bind_ok {x : Fallible ε σ α} {s : σ} {a : α} (h : x s = (.ok a, s'))
    (f : α → Fallible ε σ β) : (x >>= f) s = f a s' := by
  show Fallible.bind x f s = f a s'
  unfold Fallible.bind
  rw [h]

theorem bind_error {x : Fallible ε σ α} {s : σ} {why : ε} (h : x s = (.error why, s'))
    (f : α → Fallible ε σ β) : (x >>= f) s = (.error why, s') := by
  show Fallible.bind x f s = (.error why, s')
  unfold Fallible.bind
  rw [h]

/-- **What holds at the end** of a computation: of its result and the state, or of why it stopped
and the state. -/
def Ends (x : Fallible ε σ α) (s : σ) (Q : α → σ → Prop) (E : ε → σ → Prop) : Prop :=
  match x s with
  | (.ok a, s') => Q a s'
  | (.error why, s') => E why s'

variable {x : Fallible ε σ α} {s : σ} {Q Q' : α → σ → Prop} {E E' : ε → σ → Prop}

theorem Ends.of_ok (h : Ends x s Q E) {a : α} (hx : x s = (.ok a, s')) : Q a s' := by
  unfold Ends at h
  rw [hx] at h
  exact h

theorem Ends.of_error (h : Ends x s Q E) {why : ε} (hx : x s = (.error why, s')) :
    E why s' := by
  unfold Ends at h
  rw [hx] at h
  exact h

theorem ends_iff : Ends x s Q E ↔
    (∀ a s', x s = (.ok a, s') → Q a s') ∧ ∀ why s', x s = (.error why, s') → E why s' := by
  constructor
  · exact fun h => ⟨fun _ _ hx => h.of_ok hx, fun _ _ hx => h.of_error hx⟩
  · rintro ⟨hok, herror⟩
    unfold Ends
    split
    · exact hok _ _ ‹_›
    · exact herror _ _ ‹_›

theorem ends_pure {a : α} (h : Q a s) : Ends (pure a) s Q E := h

theorem ends_stop {why : ε} (h : E why s) : Ends (stop why) s Q E := h

theorem Ends.bind {f : α → Fallible ε σ β} {R : β → σ → Prop} (hx : Ends x s Q E)
    (hf : ∀ a s', Q a s' → Ends (f a) s' R E) : Ends (x >>= f) s R E := by
  obtain ⟨hok, herror⟩ := ends_iff.1 hx
  rcases hrun : x s with ⟨why | a, s'⟩
  · unfold Ends
    rw [bind_error hrun]
    exact herror why s' hrun
  · unfold Ends
    rw [bind_ok hrun]
    exact hf a s' (hok a s' hrun)

theorem Ends.mono (h : Ends x s Q E) (hQ : ∀ a s', Q a s' → Q' a s')
    (hE : ∀ why s', E why s' → E' why s') : Ends x s Q' E' := by
  rw [ends_iff] at h ⊢
  exact ⟨fun a s' hx => hQ a s' (h.1 a s' hx), fun why s' hx => hE why s' (h.2 why s' hx)⟩

theorem ends_ite {c : Prop} [Decidable c] {y : Fallible ε σ α} (hx : c → Ends x s Q E)
    (hy : ¬ c → Ends y s Q E) : Ends (if c then x else y) s Q E := by
  split
  · exact hx ‹_›
  · exact hy ‹_›

theorem ends_when {c : Prop} [Decidable c] {x : Fallible ε σ Unit} {P : σ → Prop}
    (hx : c → Ends x s (fun _ => P) E) (hs : P s) : Ends (when c x) s (fun _ => P) E :=
  ends_ite hx fun _ => ends_pure hs

/-- **The rule of a loop**: what every step keeps holds at the end. -/
theorem ends_foldlM {f : β → γ → Fallible ε σ β} {I : β → σ → Prop}
    (hstep : ∀ b c s, I b s → Ends (f b c) s I E) :
    ∀ (l : List γ) (b : β) (s : σ), I b s → Ends (l.foldlM f b) s I E := by
  intro l
  induction l with
  | nil => exact fun b s h => ends_pure h
  | cons c rest ih =>
    intro b s h
    rw [List.foldlM_cons]
    exact (hstep b c s h).bind fun b' s' h' => ih b' s' h'

end Fallible

end OpenBinder.Lib
