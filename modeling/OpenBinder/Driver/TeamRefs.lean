import Mathlib.Algebra.Order.BigOperators.Group.List
import Mathlib.Algebra.Order.Group.Nat
import Mathlib.Algebra.Ring.Nat
import OpenBinder.Lib.Run

/-!
# The references that keep a process alive

A transaction for `brRELEASE` or `brDECREFS` holds a `STRONG` reference on the home process of the
node. When it is returned to a thread of the process, the reference is to go over to the thread,
which drops it when it next waits, so that the process is there while user space releases.

* `takeTeam`, `releaseTeam`: who has the reference of a transaction.
* `step`: any interleaving of the threads, which are stopped between any two changes of a count.
* `Counted`: every reference has its holder.
* `teamRefs_kept_iff`: **when references are handed over**.
-/

namespace OpenBinder

open Lib Function List Option Nat

namespace Teams

/-- The bits of `tfRefTransaction`. -/
inductive RefFlags where
  | attemptAcquire
  | release
  | decRefs
  deriving DecidableEq

/-- What counts for references in a transaction: its `RefFlags`, `team`, and whether it is a reply
without data, which is destroyed as soon as it has been returned. The reference on `team` is
`STRONG` with `RefFlags` and `WEAK` without. -/
structure Transaction where
  refFlags : Option RefFlags
  team : Option ℕ
  isDataless : Bool

/-- Where a thread is in `binder_thread_ReturnTransaction`; `acquired` says that its own
`BND_ATTEMPT_ACQUIRE` succeeded. -/
inductive Pc where
  | idle
  /-- It writes the commands for the transaction, and takes the team from it. -/
  | returning (t : Transaction) (acquired : Bool)
  /-- It destroys the transaction, `freeImmediately`. -/
  | freeing (t : Transaction) (acquired : Bool)
  /-- It drops its own reference. -/
  | leaving (acquired : Bool)

/-- A thread that is attached to a process, `m_team`. -/
structure Thread where
  team : ℕ
  teamRefs : ℕ
  pc : Pc

end Teams

/-- The processes with their `STRONG` counts. `owners` has the process of each reference that
something else holds: a descriptor, another transaction in the making, a local variable. -/
structure Teams where
  strong : ℕ → ℕ
  owners : List ℕ
  transactions : List Teams.Transaction
  threads : List Teams.Thread

namespace Teams

/-- Nothing has happened yet. -/
def init : Teams := ⟨fun _ => 0, [], [], []⟩

/-- `BND_ACQUIRE(binder_proc, p, STRONG)`. -/
def acquire (s : Teams) (p : ℕ) : Teams :=
  { s with strong := update s.strong p (s.strong p + 1) }

/-- `BND_RELEASE(binder_proc, p, STRONG)`. -/
def release (s : Teams) (p : ℕ) : Teams :=
  { s with strong := update s.strong p (s.strong p - 1) }

/-- `binder_transaction_TakeTeam`. -/
def takeTeam (t : Transaction) (me : ℕ) : Option ℕ × Transaction :=
  if t.team ≠ some me ∨ t.refFlags.isSome then (none, t)
  else (t.team, { t with team := none })

/-- `binder_transaction_ReleaseTeam`, which goes by the `RefFlags` again. -/
def releaseTeam (s : Teams) (t : Transaction) : Teams :=
  match t.team with
  | some p => if t.refFlags.isSome then s.release p else s
  | none => s

/-- What `ConvertToNodes` and `ConvertFromNodes` do with the team. -/
def convert (t : Transaction) (p : ℕ) : Transaction :=
  if t.refFlags.isSome then t else { t with team := some p }

/-- What is done next. -/
inductive Action where
  /-- Something else takes or drops a reference. -/
  | acquire (p : ℕ)
  | attemptAcquire (p : ℕ)
  | drop (i : ℕ)
  /-- `binder_transaction_CreateRef`. -/
  | createRef (refFlags : RefFlags) (team : Option ℕ)
  /-- Any other transaction, or reply. -/
  | create (isDataless : Bool)
  | convertToNodes (i : ℕ) (p : ℕ)
  | releaseTeam (i : ℕ)
  | destroy (i : ℕ)
  /-- A thread is created in a process, or attached to it. -/
  | attach (team : ℕ)
  /-- `binder_thread_ReturnTransaction`, with so much room in the buffer. -/
  | returnTransaction (j i : ℕ) (remaining : ℤ)
  /-- A thread goes on in `binder_thread_ReturnTransaction`. -/
  | resume (j : ℕ)
  /-- `binder_thread_Read` is about to wait for a request. -/
  | wait (j : ℕ)
  /-- `binder_thread_Cleanup`. -/
  | cleanup (j : ℕ)

/-- The thread at `j` becomes `th`. -/
def setThread (s : Teams) (j : ℕ) (th : Thread) : Teams := { s with threads := s.threads.set j th }

/-- `m_teamRefs` is read and cleared under the lock, and the references are dropped one after the
other; until then they are those of a local variable. -/
def dropTeamRefs (s : Teams) (j : ℕ) (th : Thread) : Teams :=
  { s.setThread j { th with teamRefs := 0 } with
    owners := List.replicate th.teamRefs th.team ++ s.owners }

/-- The next region of `binder_thread_ReturnTransaction`. -/
def resume (s : Teams) (j : ℕ) (th : Thread) : Option Teams :=
  match th.pc with
  | .idle => none
  | .returning t acquired =>
    match t.refFlags with
    | some flags =>
      let (taken, t) := takeTeam t th.team
      let th := if taken.isSome then { th with teamRefs := th.teamRefs + 1 } else th
      if flags ≠ .attemptAcquire then some (s.setThread j { th with pc := .freeing t acquired })
      else
        some { s.setThread j { th with pc := .leaving acquired } with
          transactions := t :: s.transactions }
    | none =>
      let t := if acquired then convert t th.team else t
      if t.isDataless then some (s.setThread j { th with pc := .freeing t acquired })
      else
        some { s.setThread j { th with pc := .leaving acquired } with
          transactions := t :: s.transactions }
  | .freeing t acquired =>
    some ((s.releaseTeam t).setThread j { th with pc := .leaving acquired })
  | .leaving acquired =>
    some ((if acquired then s.release th.team else s).setThread j { th with pc := .idle })

/-- `binder_thread_ReturnTransaction`, up to the first change of a count. With no room for the
commands the transaction stays where it is. -/
def returnTransaction (s : Teams) (j : ℕ) (th : Thread) (i : ℕ) (t : Transaction)
    (remaining : ℤ) : Option Teams :=
  match th.pc with
  | .idle =>
    if remaining < 18 then some s
    else
      let acquired : Bool := 0 < s.strong th.team
      let s := if acquired then s.acquire th.team else s
      some { s.setThread j { th with pc := .returning t acquired } with
        transactions := s.transactions.eraseIdx i }
  | _ => none

/-- A step of the processes. -/
def step (s : Teams) : Action → Option Teams
  | .acquire p => some { s.acquire p with owners := p :: s.owners }
  | .attemptAcquire p =>
    some (if 0 < s.strong p then { s.acquire p with owners := p :: s.owners } else s)
  | .drop i => s.owners[i]?.map fun p => { s.release p with owners := s.owners.eraseIdx i }
  | .createRef refFlags team =>
    let t : Transaction := ⟨some refFlags, team, false⟩
    let s' := match team with
      | some p => s.acquire p
      | none => s
    some { s' with transactions := t :: s.transactions }
  | .create isDataless => some { s with transactions := ⟨none, none, isDataless⟩ :: s.transactions }
  | .convertToNodes i p =>
    s.transactions[i]?.map fun t => { s with transactions := s.transactions.set i (convert t p) }
  | .releaseTeam i =>
    s.transactions[i]?.map fun t =>
      { s.releaseTeam t with transactions := s.transactions.set i { t with team := none } }
  | .destroy i =>
    s.transactions[i]?.map fun t =>
      { s.releaseTeam t with transactions := s.transactions.eraseIdx i }
  | .attach team => some { s with threads := s.threads ++ [⟨team, 0, .idle⟩] }
  | .returnTransaction j i remaining =>
    match s.threads[j]?, s.transactions[i]? with
    | some th, some t => s.returnTransaction j th i t remaining
    | _, _ => none
  | .resume j => s.threads[j]?.bind fun th => s.resume j th
  | .wait j => s.threads[j]?.map fun th => if 0 < th.teamRefs then s.dropTeamRefs j th else s
  | .cleanup j => s.threads[j]?.map fun th => s.dropTeamRefs j th

/-! ## Counting -/

/-- The `STRONG` references of a transaction on a process. -/
def Transaction.held (p : ℕ) (t : Transaction) : ℕ :=
  if t.refFlags.isSome ∧ t.team = some p then 1 else 0

/-- Those of the transaction that a thread returns. -/
def Pc.held (p : ℕ) : Pc → ℕ
  | .returning t _ | .freeing t _ => t.held p
  | .idle | .leaving _ => 0

/-- Whether a thread has its own reference. -/
def Pc.acquired : Pc → Bool
  | .returning _ acquired | .freeing _ acquired | .leaving acquired => acquired
  | .idle => false

/-- The reference on `p` that a thread of a team has acquired. -/
def ownRef (team p : ℕ) : Bool → ℕ
  | true => if team = p then 1 else 0
  | false => 0

def Thread.acquired (p : ℕ) (th : Thread) : ℕ := ownRef th.team p th.pc.acquired

def Thread.kept (p : ℕ) (th : Thread) : ℕ := if th.team = p then th.teamRefs else 0

/-- The references of other owners, among them the threads that are returning a transaction. -/
def others (s : Teams) (p : ℕ) : ℕ := s.owners.count p + (s.threads.map (Thread.acquired p)).sum

/-- The references of transactions that have not been destroyed. -/
def outstanding (s : Teams) (p : ℕ) : ℕ :=
  (s.transactions.map (Transaction.held p)).sum + (s.threads.map fun th => th.pc.held p).sum

/-- The sum of `m_teamRefs` over the threads of a process. -/
def teamRefs (s : Teams) (p : ℕ) : ℕ := (s.threads.map (Thread.kept p)).sum

/-- **Every reference has its holder.** -/
def Counted (s : Teams) : Prop := ∀ p, s.strong p = s.others p + s.outstanding p + s.teamRefs p

variable {s s' : Teams} {p q i j : ℕ}

/-- The references that a thread has for itself, for its transaction and for the process. -/
def Thread.held (p : ℕ) (th : Thread) : ℕ := th.acquired p + th.pc.held p + th.kept p

/-- All references on a process. -/
def held (s : Teams) (p : ℕ) : ℕ :=
  s.owners.count p + (s.transactions.map (Transaction.held p)).sum +
    (s.threads.map (Thread.held p)).sum

theorem counted_iff : s.Counted ↔ ∀ p, s.strong p = s.held p := by
  refine forall_congr' fun p => ?_
  have hthreads : (s.threads.map (Thread.held p)).sum = (s.threads.map (Thread.acquired p)).sum +
      (s.threads.map fun th => th.pc.held p).sum + (s.threads.map (Thread.kept p)).sum := by
    rw [← sum_map_add, ← sum_map_add]
    rfl
  unfold held others outstanding teamRefs
  rw [hthreads]
  omega

theorem sum_map_set {α : Type} {l : List α} {x y : α} (f : α → ℕ) (h : l[i]? = some x) :
    ((l.set i y).map f).sum + f x = (l.map f).sum + f y := by
  obtain ⟨hi, rfl⟩ := List.getElem?_eq_some_iff.1 h
  have hset := ((set_perm_cons_eraseIdx hi y).map f).sum_eq
  have hold := ((getElem_cons_eraseIdx_perm hi).map f).sum_eq
  rw [map_cons, sum_cons] at hset hold
  omega

theorem sum_map_eraseIdx {α : Type} {l : List α} {x : α} (f : α → ℕ) (h : l[i]? = some x) :
    ((l.eraseIdx i).map f).sum + f x = (l.map f).sum := by
  obtain ⟨hi, rfl⟩ := List.getElem?_eq_some_iff.1 h
  have hold := ((getElem_cons_eraseIdx_perm hi).map f).sum_eq
  rw [map_cons, sum_cons] at hold
  omega

theorem count_eraseIdx {l : List ℕ} (h : l[i]? = some q) (p : ℕ) :
    (l.eraseIdx i).count p + (if q = p then 1 else 0) = l.count p := by
  obtain ⟨hi, rfl⟩ := List.getElem?_eq_some_iff.1 h
  have hold := (getElem_cons_eraseIdx_perm hi).count_eq p
  rw [count_cons] at hold
  simpa using hold

theorem acquire_strong (s : Teams) (q p : ℕ) :
    (s.acquire q).strong p = s.strong p + if q = p then 1 else 0 := by
  unfold acquire
  by_cases h : q = p
  · subst h
    simp
  · simp [update_of_ne (Ne.symm h), h]

theorem release_strong (s : Teams) (q p : ℕ) :
    (s.release q).strong p = s.strong p - if q = p then 1 else 0 := by
  unfold release
  by_cases h : q = p
  · subst h
    simp
  · simp [update_of_ne (Ne.symm h), h]

theorem releaseTeam_strong (s : Teams) (t : Transaction) (p : ℕ) :
    (s.releaseTeam t).strong p = s.strong p - t.held p := by
  unfold releaseTeam Transaction.held
  cases t.team with
  | none => simp
  | some q =>
    by_cases h : t.refFlags.isSome = true
    · simp [h, release_strong]
    · simp [h]

section

variable (s : Teams) (p : ℕ) (t : Transaction)

@[simp] theorem acquire_owners : (s.acquire p).owners = s.owners := rfl

@[simp] theorem acquire_transactions : (s.acquire p).transactions = s.transactions := rfl

@[simp] theorem acquire_threads : (s.acquire p).threads = s.threads := rfl

@[simp] theorem release_transactions : (s.release p).transactions = s.transactions := rfl

@[simp] theorem release_threads : (s.release p).threads = s.threads := rfl

@[simp] theorem releaseTeam_owners : (s.releaseTeam t).owners = s.owners := by
  unfold releaseTeam; split <;> [split; skip] <;> rfl

@[simp] theorem releaseTeam_transactions : (s.releaseTeam t).transactions = s.transactions := by
  unfold releaseTeam; split <;> [split; skip] <;> rfl

@[simp] theorem releaseTeam_threads : (s.releaseTeam t).threads = s.threads := by
  unfold releaseTeam; split <;> [split; skip] <;> rfl

end

theorem held_setThread {th th' : Thread} (h : s.threads[j]? = some th) (p : ℕ) :
    (s.setThread j th').held p + th.held p = s.held p + th'.held p := by
  have := sum_map_set (y := th') (Thread.held p) h
  unfold held setThread
  dsimp only
  omega

/-- A transaction that refers to its team by a `WEAK` reference has no `STRONG` one. -/
theorem held_convert (t : Transaction) (p q : ℕ) : (convert t q).held p = t.held p := by
  unfold convert
  split
  · rfl
  · rename_i h
    unfold Transaction.held
    rw [if_neg fun hc => h hc.1, if_neg fun hc => h hc.1]

theorem takeTeam_ref {t : Transaction} (h : t.refFlags.isSome = true) (me : ℕ) :
    takeTeam t me = (none, t) :=
  if_pos (.inr h)

variable {th : Thread} {t : Transaction} {acquired : Bool} {flags : RefFlags}

theorem resume_ref (hpc : th.pc = .returning t acquired) (hflags : t.refFlags = some flags) :
    s.resume j th =
      if flags ≠ .attemptAcquire then some (s.setThread j { th with pc := .freeing t acquired })
      else
        some { s.setThread j { th with pc := .leaving acquired } with
          transactions := t :: s.transactions } := by
  unfold resume
  rw [hpc]
  simp only [hflags, takeTeam_ref (t := t) (by rw [hflags]; rfl)]
  rfl

theorem held_pc (th : Thread) (pc : Pc) (p : ℕ) : ({ th with pc := pc } : Thread).held p =
    ownRef th.team p pc.acquired + pc.held p + th.kept p := rfl

theorem held_back (hth : s.threads[j]? = some th) {th' : Thread}
    (h : th'.held p + t.held p = th.held p) :
    ({ s.setThread j th' with transactions := t :: s.transactions } : Teams).held p = s.held p := by
  have hset := @held_setThread s j th th' hth p
  unfold held setThread at hset ⊢
  dsimp only at hset ⊢
  rw [map_cons, sum_cons]
  omega

theorem resume_counted (h : ∀ p, s.strong p = s.held p) (hth : s.threads[j]? = some th)
    (hs : s.resume j th = some s') (p : ℕ) : s'.strong p = s'.held p := by
  have hp := h p
  have hheld : th.held p = _ := held_pc th th.pc p
  cases hpc : th.pc with
  | idle =>
    unfold resume at hs
    rw [hpc] at hs
    cases hs
  | returning t acquired =>
    rw [hpc] at hheld
    cases hflags : t.refFlags with
    | some flags =>
      rw [resume_ref hpc hflags] at hs
      split at hs
      · obtain ⟨⟩ := hs
        have hset := @held_setThread s j th { th with pc := .freeing t acquired } hth p
        have hnew := held_pc th (.freeing t acquired) p
        exact hp.trans (add_right_cancel (hset.trans (by rw [hnew, hheld]; rfl))).symm
      · obtain ⟨⟩ := hs
        refine hp.trans (held_back hth ?_).symm
        rw [held_pc, hheld]
        simp only [Pc.acquired, Pc.held]
        omega
    | none =>
      have hteam : ∀ b : Bool, (if b then convert t th.team else t).held p = t.held p := by
        intro b
        cases b with
        | true => exact held_convert t p th.team
        | false => rfl
      unfold resume at hs
      rw [hpc] at hs
      simp only [hflags] at hs
      generalize ht' : (if acquired then convert t th.team else t) = t' at hs
      have ht := hteam acquired
      rw [ht'] at ht
      by_cases hdata : t'.isDataless = true
      · rw [if_pos hdata] at hs
        obtain ⟨⟩ := hs
        have hset := @held_setThread s j th { th with pc := .freeing t' acquired } hth p
        have hnew := held_pc th (.freeing t' acquired) p
        simp only [Pc.acquired, Pc.held] at hheld hnew
        exact hp.trans (by omega)
      · rw [if_neg hdata] at hs
        obtain ⟨⟩ := hs
        refine hp.trans (held_back hth ?_).symm
        rw [held_pc, hheld]
        simp only [Pc.acquired, Pc.held]
        omega
  | freeing t acquired =>
    unfold resume at hs
    rw [hpc] at hs hheld
    obtain ⟨⟩ := hs
    have hset := @held_setThread (s.releaseTeam t) j th { th with pc := .leaving acquired }
      (by rw [releaseTeam_threads]; exact hth) p
    have hnew := held_pc th (.leaving acquired) p
    have hfree : (s.releaseTeam t).held p = s.held p := by
      unfold held
      rw [releaseTeam_owners, releaseTeam_transactions, releaseTeam_threads]
    simp only [Pc.acquired, Pc.held] at hheld hnew
    show (s.releaseTeam t).strong p = _
    rw [releaseTeam_strong]
    omega
  | leaving acquired =>
    unfold resume at hs
    rw [hpc] at hs hheld
    obtain ⟨⟩ := hs
    cases acquired with
    | true =>
      have hset := @held_setThread (s.release th.team) j th { th with pc := .idle } hth p
      have hnew := held_pc th .idle p
      have hfree : (s.release th.team).held p = s.held p := rfl
      simp only [Pc.acquired, Pc.held] at hheld hnew
      show (s.release th.team).strong p = _
      rw [release_strong]
      simp only [ownRef] at hheld hnew
      simp only [if_true]
      omega
    | false =>
      have hset := @held_setThread s j th { th with pc := .idle } hth p
      have hnew := held_pc th .idle p
      simp only [Pc.acquired, Pc.held] at hheld hnew
      simp only [Bool.false_eq_true, if_false]
      exact hp.trans (by omega)

theorem held_taken (hth : s.threads[j]? = some th) (ht : s.transactions[i]? = some t)
    (th' : Thread) (howners : s'.owners = s.owners)
    (htransactions : s'.transactions = s.transactions.eraseIdx i)
    (hthreads : s'.threads = s.threads.set j th') {n : ℕ}
    (hn : n + th.held p + t.held p = s.held p + th'.held p) : n = s'.held p := by
  have hset := @held_setThread s j th th' hth p
  have herase := sum_map_eraseIdx (Transaction.held p) ht
  unfold held at hn ⊢
  unfold held setThread at hset
  dsimp only at hset
  rw [howners, htransactions, hthreads]
  omega

theorem returnTransaction_counted (h : ∀ p, s.strong p = s.held p)
    (hth : s.threads[j]? = some th) (ht : s.transactions[i]? = some t) {remaining : ℤ}
    (hs : s.returnTransaction j th i t remaining = some s') (p : ℕ) : s'.strong p = s'.held p := by
  have hp := h p
  have hheld : th.held p = _ := held_pc th th.pc p
  unfold returnTransaction at hs
  cases hpc : th.pc with
  | idle =>
    rw [hpc] at hs hheld
    dsimp only at hs
    split at hs
    · obtain ⟨⟩ := hs
      exact hp
    · obtain ⟨⟩ := hs
      by_cases hpos : 0 < s.strong th.team
      · have hnew := held_pc th (.returning t true) p
        simp only [Pc.acquired, Pc.held, ownRef] at hheld hnew
        simp only [hpos, decide_true, if_true]
        show (s.acquire th.team).strong p = _
        rw [acquire_strong]
        refine held_taken hth ht { th with pc := .returning t true } ?_ ?_ ?_ ?_
        rotate_left 3
        · rw [hnew]
          omega
        all_goals rfl
      · have hnew := held_pc th (.returning t false) p
        simp only [Pc.acquired, Pc.held, ownRef] at hheld hnew
        simp only [hpos, decide_false, Bool.false_eq_true, if_false]
        refine hp.trans (held_taken hth ht { th with pc := .returning t false } ?_ ?_ ?_ ?_)
        rotate_left 3
        · rw [hnew]
          omega
        all_goals rfl
  | returning t' acquired => rw [hpc] at hs; cases hs
  | freeing t' acquired => rw [hpc] at hs; cases hs
  | leaving acquired => rw [hpc] at hs; cases hs

/-- **References that a thread drops** belong to the loop that drops them. -/
theorem dropTeamRefs_held (hth : s.threads[j]? = some th) (p : ℕ) :
    (s.dropTeamRefs j th).held p = s.held p := by
  have hset := @held_setThread s j th { th with teamRefs := 0 } hth p
  have hcount : (List.replicate th.teamRefs th.team).count p = th.kept p := by
    unfold Thread.kept
    rw [count_replicate]
    by_cases hp : th.team = p <;> simp [hp]
  have hkept : ({ th with teamRefs := 0 } : Thread).held p + th.kept p = th.held p := by
    unfold Thread.held Thread.kept
    simp only [ite_self]
    rfl
  unfold held setThread at hset
  unfold dropTeamRefs held setThread
  dsimp only at hset ⊢
  rw [count_append, hcount]
  omega

theorem step_counted {a : Action} (h : ∀ p, s.strong p = s.held p) (hs : step s a = some s') :
    ∀ p, s'.strong p = s'.held p := by
  intro p
  have hp := h p
  have hown : ∀ q, ({ s.acquire q with owners := q :: s.owners } : Teams).strong p =
      ({ s.acquire q with owners := q :: s.owners } : Teams).held p := by
    intro q
    show (s.acquire q).strong p = _
    rw [acquire_strong]
    unfold held at hp ⊢
    rw [count_cons, acquire_transactions, acquire_threads, hp]
    by_cases hq : q = p
    · simp [hq]; omega
    · simp [hq]
  cases a with
  | acquire q =>
    obtain ⟨⟩ := hs
    exact hown q
  | attemptAcquire q =>
    obtain ⟨⟩ := hs
    split
    · exact hown q
    · exact hp
  | drop i =>
    obtain ⟨q, hq, rfl⟩ := map_eq_some_iff.1 hs
    have hcount := count_eraseIdx hq p
    show (s.release q).strong p = _
    rw [release_strong]
    unfold held at hp ⊢
    dsimp only [release_transactions, release_threads]
    omega
  | createRef refFlags team =>
    obtain ⟨⟩ := hs
    cases team with
    | none =>
      refine hp.trans ?_
      unfold held
      rw [map_cons, sum_cons]
      simp [Transaction.held]
    | some q =>
      show (s.acquire q).strong p = _
      rw [acquire_strong]
      unfold held at hp ⊢
      dsimp only [acquire_owners, acquire_threads]
      rw [map_cons, sum_cons]
      simp only [Transaction.held, isSome_some, true_and, Option.some.injEq]
      omega
  | create isDataless =>
    obtain ⟨⟩ := hs
    refine hp.trans ?_
    unfold held
    rw [map_cons, sum_cons]
    simp [Transaction.held]
  | convertToNodes i q =>
    obtain ⟨t, ht, rfl⟩ := map_eq_some_iff.1 hs
    have hset := sum_map_set (y := convert t q) (Transaction.held p) ht
    have hsame := held_convert t p q
    refine hp.trans ?_
    unfold held
    dsimp only
    omega
  | releaseTeam i =>
    obtain ⟨t, ht, rfl⟩ := map_eq_some_iff.1 hs
    have hset := sum_map_set (y := { t with team := none }) (Transaction.held p) ht
    have hnone : ({ t with team := none } : Transaction).held p = 0 := by simp [Transaction.held]
    show (s.releaseTeam t).strong p = _
    rw [releaseTeam_strong]
    unfold held at hp ⊢
    dsimp only
    rw [releaseTeam_owners, releaseTeam_threads]
    omega
  | destroy i =>
    obtain ⟨t, ht, rfl⟩ := map_eq_some_iff.1 hs
    have herase := sum_map_eraseIdx (Transaction.held p) ht
    show (s.releaseTeam t).strong p = _
    rw [releaseTeam_strong]
    unfold held at hp ⊢
    dsimp only
    rw [releaseTeam_owners, releaseTeam_threads]
    omega
  | attach team =>
    obtain ⟨⟩ := hs
    refine hp.trans ?_
    unfold held
    rw [map_append, sum_append]
    simp [Thread.held, Thread.acquired, Thread.kept, Pc.held, Pc.acquired, ownRef]
  | returnTransaction j i remaining =>
    unfold step at hs
    dsimp only at hs
    split at hs
    · rename_i th t hth ht
      exact returnTransaction_counted h hth ht hs p
    · cases hs
  | resume j =>
    obtain ⟨th, hth, hs⟩ := bind_eq_some_iff.1 hs
    exact resume_counted h hth hs p
  | wait j =>
    obtain ⟨th, hth, rfl⟩ := map_eq_some_iff.1 hs
    split
    · exact hp.trans (dropTeamRefs_held hth p).symm
    · exact hp
  | cleanup j =>
    obtain ⟨th, hth, rfl⟩ := map_eq_some_iff.1 hs
    exact hp.trans (dropTeamRefs_held hth p).symm

/-! ## Handing over -/

/-- **A final release is returned to its process**: the thread at `j` is about to take the team of
a transaction for `brRELEASE` or `brDECREFS`, and the team is its own. -/
def ReturnsRelease (s : Teams) (j : ℕ) : Prop :=
  ∃ th t acquired flags, s.threads[j]? = some th ∧ th.pc = .returning t acquired ∧
    t.refFlags = some flags ∧ flags ≠ .attemptAcquire ∧ t.team = some th.team

/-- Then the thread has one reference more, and no count changes. -/
def HandsOver (s : Teams) (a : Action) : Prop :=
  ∀ j s', a = .resume j → s.ReturnsRelease j → step s a = some s' →
    s'.strong = s.strong ∧ ∀ th th', s.threads[j]? = some th → s'.threads[j]? = some th' →
      th'.teamRefs = th.teamRefs + 1

/-- A thread keeps its references until it waits or is cleaned up. -/
def Keeps (s : Teams) (a : Action) : Prop :=
  ∀ j th s', s.threads[j]? = some th → a ≠ .wait j → a ≠ .cleanup j → step s a = some s' →
    ∃ th', s'.threads[j]? = some th' ∧ th.teamRefs ≤ th'.teamRefs

/-- What is claimed of every step. -/
structure Kept (s : Teams) (a : Action) : Prop where
  handsOver : HandsOver s a
  keeps : Keeps s a
  counted : ∀ s', step s a = some s' → s'.Counted

/-- No final release is returned to its process. -/
def Observes (s : Teams) (a : Action) : Prop := ∀ j, a = .resume j → ¬ s.ReturnsRelease j

/-- A thread that goes on has as many references as before, or one more. -/
theorem resume_threads (hs : s.resume j th = some s') : ∃ th', th.teamRefs ≤ th'.teamRefs ∧
    s'.threads = s.threads.set j th' := by
  unfold resume at hs
  split at hs
  · cases hs
  · rename_i t acquired hpc
    split at hs
    · rename_i flags hflags
      dsimp only at hs
      have hle : ∀ b : Bool, th.teamRefs ≤
          (if b then { th with teamRefs := th.teamRefs + 1 } else th : Thread).teamRefs := by
        intro b
        cases b with
        | true => exact le_succ _
        | false => exact le_refl _
      split at hs
      · obtain ⟨⟩ := hs
        refine ⟨_, ?_, rfl⟩
        exact hle _
      · obtain ⟨⟩ := hs
        refine ⟨_, ?_, rfl⟩
        exact hle _
    · dsimp only at hs
      generalize (if acquired then convert t th.team else t) = t' at hs
      split at hs
      · obtain ⟨⟩ := hs
        refine ⟨_, ?_, rfl⟩
        exact le_refl _
      · obtain ⟨⟩ := hs
        refine ⟨_, ?_, rfl⟩
        exact le_refl _
  · rename_i t acquired hpc
    obtain ⟨⟩ := hs
    refine ⟨{ th with pc := .leaving acquired }, le_refl _, ?_⟩
    unfold setThread
    rw [releaseTeam_threads]
  · rename_i acquired hpc
    obtain ⟨⟩ := hs
    cases acquired with
    | true =>
      refine ⟨_, ?_, rfl⟩
      exact le_refl _
    | false =>
      refine ⟨_, ?_, rfl⟩
      exact le_refl _

theorem keeps_set {l : List Thread} {th' th₀ : Thread} (hi : l[i]? = some th)
    (hle : th.teamRefs ≤ th'.teamRefs) (hj : l[j]? = some th₀) :
    ∃ th₁, (l.set i th')[j]? = some th₁ ∧ th₀.teamRefs ≤ th₁.teamRefs := by
  by_cases hij : i = j
  · subst hij
    obtain ⟨⟩ := hi.symm.trans hj
    obtain ⟨hlt, -⟩ := List.getElem?_eq_some_iff.1 hi
    exact ⟨th', List.getElem?_set_self hlt, hle⟩
  · exact ⟨th₀, by rw [List.getElem?_set_ne hij, hj], le_refl _⟩

/-- **References are dropped by a thread that waits or is cleaned up** and by no other. -/
theorem step_keeps (s : Teams) (a : Action) : Keeps s a := by
  intro j th s' hth hwait hcleanup hs
  have hsame : s'.threads = s.threads →
      ∃ th', s'.threads[j]? = some th' ∧ th.teamRefs ≤ th'.teamRefs :=
    fun h => ⟨th, by rw [h, hth], le_refl _⟩
  cases a with
  | acquire q => obtain rfl := Option.some.inj hs; exact hsame rfl
  | attemptAcquire q =>
    obtain ⟨⟩ := hs
    apply hsame
    split <;> rfl
  | drop i => obtain ⟨q, -, rfl⟩ := map_eq_some_iff.1 hs; exact hsame rfl
  | createRef refFlags team =>
    obtain ⟨⟩ := hs
    cases team with
    | none => exact hsame rfl
    | some q => exact hsame rfl
  | create isDataless => obtain rfl := Option.some.inj hs; exact hsame rfl
  | convertToNodes i q => obtain ⟨t, -, rfl⟩ := map_eq_some_iff.1 hs; exact hsame rfl
  | releaseTeam i =>
    obtain ⟨t, -, rfl⟩ := map_eq_some_iff.1 hs
    exact hsame (releaseTeam_threads s t)
  | destroy i =>
    obtain ⟨t, -, rfl⟩ := map_eq_some_iff.1 hs
    exact hsame (releaseTeam_threads s t)
  | attach team =>
    obtain ⟨⟩ := hs
    obtain ⟨hlt, -⟩ := List.getElem?_eq_some_iff.1 hth
    exact ⟨th, by rw [List.getElem?_append_left hlt, hth], le_refl _⟩
  | returnTransaction k i remaining =>
    unfold step at hs
    dsimp only at hs
    split at hs
    · rename_i th₁ t hth₁ ht
      unfold returnTransaction at hs
      split at hs
      · dsimp only at hs
        split at hs
        · obtain ⟨⟩ := hs
          exact hsame rfl
        · obtain ⟨⟩ := hs
          split
          · exact keeps_set hth₁ (le_refl _) hth
          · exact keeps_set hth₁ (le_refl _) hth
      · cases hs
    · cases hs
  | resume k =>
    obtain ⟨th₁, hth₁, hs⟩ := bind_eq_some_iff.1 hs
    obtain ⟨th', hle, hset⟩ := resume_threads hs
    rw [hset]
    exact keeps_set hth₁ hle hth
  | wait k =>
    have hne : k ≠ j := fun h => hwait (by rw [h])
    obtain ⟨th₁, -, rfl⟩ := map_eq_some_iff.1 hs
    by_cases hpos : 0 < th₁.teamRefs
    · rw [if_pos hpos]
      exact ⟨th, (List.getElem?_set_ne hne).trans hth, le_refl _⟩
    · exact hsame (by rw [if_neg hpos])
  | cleanup k =>
    have hne : k ≠ j := fun h => hcleanup (by rw [h])
    obtain ⟨th₁, -, rfl⟩ := map_eq_some_iff.1 hs
    exact ⟨th, (List.getElem?_set_ne hne).trans hth, le_refl _⟩

/-- **A final release is never handed over**: the transaction keeps its team, and is destroyed. -/
theorem not_handsOver (h : s.ReturnsRelease j) : ¬ HandsOver s (.resume j) := by
  intro hover
  obtain ⟨th, t, acquired, flags, hth, hpc, hflags, hne, hteam⟩ := h
  have hs : step s (.resume j) = some (s.setThread j { th with pc := .freeing t acquired }) := by
    show s.threads[j]?.bind _ = _
    rw [hth, bind_some, resume_ref hpc hflags, if_pos hne]
  obtain ⟨hlt, -⟩ := List.getElem?_eq_some_iff.1 hth
  have hrefs := (hover j _ rfl ⟨th, t, acquired, flags, hth, hpc, hflags, hne, hteam⟩ hs).2 th _ hth
    (List.getElem?_set_self hlt)
  exact absurd hrefs (succ_ne_self _).symm

/-- **When the references of final releases are kept**: exactly in the runs in which no process is
told of a final release. -/
theorem teamRefs_kept_iff (run : List Action) :
    AllSteps step Kept init run ↔ AllSteps step Observes init run := by
  refine @allSteps_congr _ _ step (fun s => ∀ p, s.strong p = s.held p) _ _ ?_ ?_ run init ?_
  · intro s a h
    constructor
    · rintro hkept j rfl hrelease
      exact not_handsOver hrelease hkept.handsOver
    · intro hobs
      refine ⟨?_, step_keeps s a, fun s' hs => counted_iff.2 (step_counted h hs)⟩
      intro j s' ha hrelease
      exact absurd hrelease (hobs j ha)
  · intro s a s' h hs
    exact step_counted h hs
  · intro p
    rfl

/-- A strong reference to a node is gone. Its process is told, and has no reference for the time
that it needs to release the object. -/
theorem teamRefs_not_kept : ¬ ∀ run, AllSteps step Kept init run := by
  intro h
  obtain ⟨-, hrest⟩ := h [.attach 0, .createRef .release (some 0), .returnTransaction 0 0 100,
    .resume 0] _ rfl
  obtain ⟨-, hrest⟩ := hrest _ rfl
  obtain ⟨-, hrest⟩ := hrest _ rfl
  obtain ⟨hkept, -⟩ := hrest _ rfl
  exact not_handsOver ⟨_, _, _, _, rfl, rfl, rfl, by decide, rfl⟩ hkept.handsOver

end Teams

end OpenBinder
