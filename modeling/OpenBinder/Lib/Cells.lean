import Mathlib.Data.List.Basic
import Mathlib.Data.List.Induction

/-!
# Cells that hold objects

Memory in which objects are constructed and destroyed: a block is a list of cells, each of which
holds an object or is raw. Constructing over an object, reading or destroying a raw cell, leaving a
block, and freeing a block that holds objects are `none`: an object would be lost, or destroyed
twice.

* `moveBefore_other`, `moveBefore_same`, `moveAfter_same`: a loop that moves objects one by one
  leaves its source raw and its destination filled, also if they overlap in the right direction.
* `constructAll_eq`, `destroyAll_eq`, `copy_same`, `replicate_same`: the other loops.
-/

namespace OpenBinder.Lib

open List

open Function

variable {P α : Type} [DecidableEq P]

/-- The cells of a block. -/
abbrev Cells (α : Type) := List (Option α)

/-- The blocks at places. -/
abbrev Store (P α : Type) := P → Option (Cells α)

/-- Cells that hold objects. -/
def filled (xs : List α) : Cells α := xs.map some

/-- Raw cells. -/
def raw (n : ℕ) : Cells α := List.replicate n none

@[simp] theorem filled_length (xs : List α) : (filled xs).length = xs.length := length_map _

@[simp] theorem raw_length (n : ℕ) : (raw n : Cells α).length = n := length_replicate

@[simp] theorem filled_nil : filled ([] : List α) = [] := rfl

@[simp] theorem filled_append (xs ys : List α) : filled (xs ++ ys) = filled xs ++ filled ys :=
  map_append

theorem filled_cons (x : α) (xs : List α) : filled (x :: xs) = some x :: filled xs := rfl

@[simp] theorem raw_zero : (raw 0 : Cells α) = [] := rfl

theorem raw_succ (n : ℕ) : (raw (n + 1) : Cells α) = none :: raw n := replicate_succ

theorem raw_succ' (n : ℕ) : (raw (n + 1) : Cells α) = raw n ++ [none] := replicate_succ'

theorem raw_add (m n : ℕ) : (raw (m + n) : Cells α) = raw m ++ raw n :=
  replicate_append_replicate.symm

namespace Store

/-- A block is put at a place. -/
def put (m : Store P α) (p : P) (cells : Cells α) : Store P α := update m p (some cells)

/-- The object in a cell. -/
def read (m : Store P α) (p : P) (i : ℕ) : Option α := do
  let cells ← m p
  (← cells[i]?)

/-- An object is constructed in a raw cell. -/
def construct (m : Store P α) (p : P) (i : ℕ) (x : α) : Option (Store P α) :=
  match m p with
  | none => none
  | some cells =>
    match cells[i]? with
    | some none => some (m.put p (cells.set i (some x)))
    | _ => none

/-- The object in a cell is destroyed. -/
def destroy (m : Store P α) (p : P) (i : ℕ) : Option (Store P α) :=
  match m p with
  | none => none
  | some cells =>
    match cells[i]? with
    | some (some _) => some (m.put p (cells.set i none))
    | _ => none

/-- The object in a cell is assigned to. -/
def assign (m : Store P α) (p : P) (i : ℕ) (x : α) : Option (Store P α) :=
  match m p with
  | none => none
  | some cells =>
    match cells[i]? with
    | some (some _) => some (m.put p (cells.set i (some x)))
    | _ => none

/-- Objects are constructed one after the other. -/
def constructAll (p : P) : ℕ → List α → Store P α → Option (Store P α)
  | _, [], m => some m
  | i, x :: xs, m => (m.construct p i x).bind (constructAll p (i + 1) xs)

/-- Objects are assigned to one after the other. -/
def assignAll (p : P) : ℕ → List α → Store P α → Option (Store P α)
  | _, [], m => some m
  | i, x :: xs, m => (m.assign p i x).bind (assignAll p (i + 1) xs)

/-- Objects are destroyed one after the other. -/
def destroyAll (p : P) : ℕ → ℕ → Store P α → Option (Store P α)
  | _, 0, m => some m
  | i, n + 1, m => (m.destroy p i).bind (destroyAll p (i + 1) n)

/-- Objects are copied one after the other. -/
def copy (p : P) (q : P) : ℕ → ℕ → ℕ → Store P α → Option (Store P α)
  | _, _, 0, m => some m
  | i, j, n + 1, m =>
    (m.read q j).bind fun x => (m.construct p i x).bind (copy p q (i + 1) (j + 1) n)

/-- One object is copied over and over. -/
def replicate (p : P) (q : P) (j : ℕ) : ℕ → ℕ → Store P α → Option (Store P α)
  | _, 0, m => some m
  | i, n + 1, m =>
    (m.read q j).bind fun x => (m.construct p i x).bind (replicate p q j (i + 1) n)

/-- An object is copied and the original destroyed. -/
def move (p : P) (i : ℕ) (q : P) (j : ℕ) (m : Store P α) : Option (Store P α) :=
  (m.read q j).bind fun x => (m.construct p i x).bind fun m => m.destroy q j

/-- Objects are moved, the first one first. -/
def moveBefore (p : P) (q : P) : ℕ → ℕ → ℕ → Store P α → Option (Store P α)
  | _, _, 0, m => some m
  | i, j, n + 1, m => (m.move p i q j).bind (moveBefore p q (i + 1) (j + 1) n)

/-- Objects are moved, the last one first. -/
def moveAfter (p : P) (i : ℕ) (q : P) (j : ℕ) : ℕ → Store P α → Option (Store P α)
  | 0, m => some m
  | n + 1, m => (m.move p (i + n) q (j + n)).bind (moveAfter p i q j n)

/-- A block is freed: nothing is in it. -/
def free (m : Store P α) (p : P) : Option (Store P α) :=
  match m p with
  | none => none
  | some cells => if cells.all Option.isNone then some (update m p none) else none

/-- A block gets another size: nothing is in what is cut off. -/
def resize (m : Store P α) (p : P) (n : ℕ) : Option (Store P α) :=
  match m p with
  | none => none
  | some cells =>
    if (cells.drop n).all Option.isNone then
      some (m.put p (cells.take n ++ raw (n - cells.length)))
    else none

/-! ### One object -/

variable {m : Store P α} {p q : P} {a b c d : Cells α} {x y : α} {i j n k : ℕ} {xs : List α}

@[simp] theorem put_self (cells : Cells α) : m.put p cells p = some cells := by
  simp [put]

theorem put_ne (cells : Cells α) (h : q ≠ p) : m.put p cells q = m q := by
  simp [put, h]

@[simp] theorem put_put (cells cells' : Cells α) : (m.put p cells).put p cells' = m.put p cells' :=
  update_idem _ _ _

theorem put_comm (cells cells' : Cells α) (h : p ≠ q) :
    (m.put p cells).put q cells' = (m.put q cells').put p cells :=
  update_comm h _ _ _

theorem put_eq (h : m p = some a) : m.put p a = m := by
  unfold put
  rw [← h]
  exact update_eq_self p m

omit [DecidableEq P] in
theorem read_eq (h : m p = some (a ++ some x :: b)) : m.read p a.length = some x := by
  unfold read
  rw [h]
  simp

theorem construct_eq (h : m p = some (a ++ none :: b)) :
    m.construct p a.length x = some (m.put p (a ++ some x :: b)) := by
  unfold construct
  rw [h]
  simp

theorem destroy_eq (h : m p = some (a ++ some x :: b)) :
    m.destroy p a.length = some (m.put p (a ++ none :: b)) := by
  unfold destroy
  rw [h]
  simp

theorem assign_eq (h : m p = some (a ++ some x :: b)) :
    m.assign p a.length y = some (m.put p (a ++ some y :: b)) := by
  unfold assign
  rw [h]
  simp

theorem move_other (hpq : p ≠ q) (hp : m p = some (a ++ none :: b))
    (hq : m q = some (c ++ some x :: d)) :
    m.move p a.length q c.length =
      some ((m.put p (a ++ some x :: b)).put q (c ++ none :: d)) := by
  unfold move
  rw [read_eq hq]
  dsimp only [Option.bind]
  rw [construct_eq hp]
  dsimp only [Option.bind]
  rw [destroy_eq (x := x) (b := d) (by rw [put_ne _ hpq.symm, hq])]

theorem move_down (hm : m p = some (a ++ none :: (b ++ some x :: c))) :
    m.move p a.length p (a ++ none :: b).length =
      some (m.put p (a ++ some x :: (b ++ none :: c))) := by
  unfold move
  rw [read_eq (b := c) (x := x) (by rw [hm]; simp)]
  dsimp only [Option.bind]
  rw [construct_eq hm]
  dsimp only [Option.bind]
  have hlen : (a ++ none :: b).length = (a ++ some x :: b).length := by simp
  rw [hlen, destroy_eq (x := x) (b := c) (by simp), put_put]
  simp

theorem move_up (hm : m p = some (a ++ some x :: (b ++ none :: c))) :
    m.move p (a ++ some x :: b).length p a.length =
      some (m.put p (a ++ none :: (b ++ some x :: c))) := by
  unfold move
  rw [read_eq hm]
  dsimp only [Option.bind]
  rw [construct_eq (b := c) (by rw [hm]; simp)]
  dsimp only [Option.bind]
  rw [destroy_eq (x := x) (b := b ++ some x :: c) (by simp), put_put]

/-! ### One after the other -/

theorem constructAll_eq (hm : m p = some (a ++ (raw xs.length ++ b))) (hi : i = a.length) :
    constructAll p i xs m = some (m.put p (a ++ (filled xs ++ b))) := by
  induction xs generalizing m a i with
  | nil =>
    rw [constructAll, put_eq (by simpa using hm)]
  | cons x xs ih =>
    rw [length_cons, raw_succ, cons_append] at hm
    rw [constructAll, hi, construct_eq hm]
    dsimp only [Option.bind]
    rw [ih (a := a ++ [some x]) (by simp) (by simp), put_put]
    simp [filled_cons]

theorem assignAll_eq {l : List α} (hm : m p = some (a ++ (filled l ++ b))) (hi : i = a.length)
    (hlen : l.length = xs.length) :
    assignAll p i xs m = some (m.put p (a ++ (filled xs ++ b))) := by
  induction xs generalizing m a i l with
  | nil =>
    obtain rfl := length_eq_zero_iff.1 hlen
    rw [assignAll, put_eq (by simpa using hm)]
  | cons x xs ih =>
    obtain ⟨y, l, rfl⟩ := exists_cons_of_length_eq_add_one hlen
    rw [filled_cons, cons_append] at hm
    rw [assignAll, hi, assign_eq hm]
    dsimp only [Option.bind]
    rw [ih (a := a ++ [some x]) (l := l) (by simp) (by simp) (by simpa using hlen), put_put]
    simp [filled_cons]

theorem destroyAll_eq (hm : m p = some (a ++ (filled xs ++ b))) (hi : i = a.length)
    (hn : n = xs.length) : destroyAll p i n m = some (m.put p (a ++ (raw xs.length ++ b))) := by
  subst hn
  induction xs generalizing m a i with
  | nil =>
    rw [length_nil, destroyAll, put_eq (by simpa using hm)]
  | cons x xs ih =>
    rw [filled_cons, cons_append] at hm
    rw [length_cons, destroyAll, hi, destroy_eq hm]
    dsimp only [Option.bind]
    rw [ih (a := a ++ [none]) (by simp) (by simp), put_put]
    simp [raw_succ]

/-- **Objects are copied** within a block, to raw cells behind them. -/
theorem copy_same (hm : m p = some (a ++ (filled xs ++ (b ++ (raw xs.length ++ c)))))
    (hi : i = a.length + xs.length + b.length) (hj : j = a.length) (hn : n = xs.length) :
    copy p p i j n m = some (m.put p (a ++ (filled xs ++ (b ++ (filled xs ++ c))))) := by
  subst hn
  induction xs generalizing m a b i j with
  | nil =>
    rw [length_nil, copy, put_eq (by simpa using hm)]
  | cons x xs ih =>
    rw [filled_cons, length_cons, raw_succ, cons_append, cons_append] at hm
    have hread : m.read p a.length = some x := read_eq hm
    have hcons : m.construct p i x =
        some (m.put p ((a ++ some x :: (filled xs ++ b)) ++ some x :: (raw xs.length ++ c))) := by
      have hlen : i = (a ++ some x :: (filled xs ++ b)).length := by
        rw [hi]
        simp
        omega
      rw [hlen]
      apply construct_eq
      rw [hm]
      simp
    rw [length_cons, copy, hj, hread]
    dsimp only [Option.bind]
    rw [hcons]
    dsimp only [Option.bind]
    rw [ih (a := a ++ [some x]) (b := b ++ [some x]) (by simp) (by simp [hi]; omega) (by simp),
      put_put]
    simp [filled_cons]

/-- **An object is copied over and over** within a block, to raw cells behind it. -/
theorem replicate_same (hm : m p = some (a ++ some x :: (b ++ (raw n ++ c))))
    (hi : i = a.length + 1 + b.length) (hj : j = a.length) :
    replicate p p j i n m =
      some (m.put p (a ++ some x :: (b ++ (filled (List.replicate n x) ++ c)))) := by
  induction n generalizing m b i with
  | zero =>
    rw [replicate, put_eq (by simpa using hm)]
  | succ n ih =>
    rw [raw_succ, cons_append] at hm
    have hread : m.read p a.length = some x := read_eq hm
    have hcons : m.construct p i x =
        some (m.put p ((a ++ some x :: b) ++ some x :: (raw n ++ c))) := by
      have hlen : i = (a ++ some x :: b).length := by
        rw [hi]
        simp
        omega
      rw [hlen]
      apply construct_eq
      rw [hm]
      simp
    rw [replicate, hj, hread]
    dsimp only [Option.bind]
    rw [hcons]
    dsimp only [Option.bind]
    rw [← hj, ih (b := b ++ [some x]) (by simp) (by simp [hi]; omega), put_put]
    simp [replicate_succ, filled_cons]

/-- **Objects move to another block.** -/
theorem moveBefore_other (hpq : p ≠ q) (hp : m p = some (a ++ (raw xs.length ++ b)))
    (hq : m q = some (c ++ (filled xs ++ d))) (hi : i = a.length) (hj : j = c.length)
    (hn : n = xs.length) :
    moveBefore p q i j n m =
      some ((m.put p (a ++ (filled xs ++ b))).put q (c ++ (raw xs.length ++ d))) := by
  subst hn
  induction xs generalizing m a c i j with
  | nil =>
    have hp' : m.put p (a ++ (filled [] ++ b)) = m := put_eq (by simpa using hp)
    rw [length_nil, moveBefore, hp', put_eq (by simpa using hq)]
  | cons x xs ih =>
    rw [length_cons, raw_succ, cons_append] at hp
    rw [filled_cons, cons_append] at hq
    rw [length_cons, moveBefore, hi, hj, move_other hpq hp hq]
    dsimp only [Option.bind]
    rw [ih (a := a ++ [some x]) (c := c ++ [none]) (by rw [put_ne _ hpq]; simp) (by simp) (by simp)
      (by simp), put_comm _ _ hpq.symm, put_put, put_put]
    simp [filled_cons, raw_succ]

/-- **Objects move towards the front** of their block, the first one first. -/
theorem moveBefore_same (hk : 0 < k) (hm : m p = some (a ++ (raw k ++ (filled xs ++ b))))
    (hi : i = a.length) (hj : j = a.length + k) (hn : n = xs.length) :
    moveBefore p p i j n m = some (m.put p (a ++ (filled xs ++ (raw k ++ b)))) := by
  subst hn
  obtain ⟨k, rfl⟩ : ∃ l, k = l + 1 := ⟨k - 1, by omega⟩
  induction xs generalizing m a i j with
  | nil =>
    rw [length_nil, moveBefore, put_eq (by simpa using hm)]
  | cons x xs ih =>
    rw [filled_cons, raw_succ, cons_append, cons_append] at hm
    have hlen : j = (a ++ none :: raw k).length := by
      rw [hj]
      simp
    rw [length_cons, moveBefore, hi, hlen, move_down hm]
    dsimp only [Option.bind]
    have hraw : (raw k : Cells α) ++ none :: (filled xs ++ b) = raw (k + 1) ++ (filled xs ++ b) := by
      rw [raw_succ', append_assoc, singleton_append]
    have hraw' : (raw (k + 1) : Cells α) ++ b = raw k ++ none :: b := by
      rw [raw_succ', append_assoc, singleton_append]
    rw [ih (a := a ++ [some x]) (by simp) (by simp [hraw]) (by simp; omega), put_put]
    simp [filled_cons, hraw']

/-- **Objects move towards the end** of their block, the last one first. -/
theorem moveAfter_same (hk : 0 < k) (hm : m p = some (a ++ (filled xs ++ (raw k ++ b))))
    (hi : i = a.length + k) (hj : j = a.length) (hn : n = xs.length) :
    moveAfter p i p j n m = some (m.put p (a ++ (raw k ++ (filled xs ++ b)))) := by
  subst hn hi hj
  obtain ⟨k, rfl⟩ : ∃ l, k = l + 1 := ⟨k - 1, by omega⟩
  induction xs using List.reverseRecOn generalizing m b with
  | nil =>
    rw [length_nil, moveAfter, put_eq (by simpa using hm)]
  | append_singleton xs x ih =>
    have hm' : m p = some ((a ++ filled xs) ++ some x :: (raw k ++ none :: b)) := by
      rw [hm, raw_succ']
      simp [filled_cons]
    have hlen1 : a.length + (k + 1) + xs.length = ((a ++ filled xs) ++ some x :: raw k).length := by
      simp
      omega
    have hlen2 : a.length + xs.length = (a ++ filled xs).length := by simp
    rw [length_append, length_singleton, moveAfter, hlen1, hlen2, move_up hm']
    dsimp only [Option.bind]
    rw [ih (b := some x :: b) (by simp [raw_succ]), put_put]
    simp [filled_cons]

theorem all_isNone_raw (n : ℕ) : (raw n : Cells α).all Option.isNone = true := by
  simp [raw]

theorem free_eq (h : m p = some (raw n)) : m.free p = some (update m p none) := by
  unfold free
  rw [h]
  dsimp only
  rw [if_pos (all_isNone_raw n)]

/-- **A block grows** by raw cells. -/
theorem resize_grow (h : m p = some a) (hn : a.length ≤ n) :
    m.resize p n = some (m.put p (a ++ raw (n - a.length))) := by
  unfold resize
  rw [h]
  dsimp only
  rw [drop_eq_nil_of_le hn, take_of_length_le hn]
  simp

/-- **A block shrinks** by raw cells. -/
theorem resize_shrink (h : m p = some (a ++ raw k)) (ha : a.length ≤ n) (hn : n ≤ a.length + k) :
    m.resize p n = some (m.put p (a ++ raw (n - a.length))) := by
  obtain ⟨l, rfl⟩ : ∃ l, n = a.length + l := ⟨n - a.length, by omega⟩
  obtain ⟨r, rfl⟩ : ∃ r, k = l + r := ⟨k - l, by omega⟩
  have htake : (a ++ raw (l + r)).take (a.length + l) = a ++ raw l := by
    rw [raw_add, ← append_assoc, take_left' (by simp)]
  have hdrop : (a ++ raw (l + r)).drop (a.length + l) = raw r := by
    rw [raw_add, ← append_assoc, drop_left' (by simp)]
  unfold resize
  rw [h]
  dsimp only
  rw [hdrop, htake, if_pos (all_isNone_raw r)]
  have h0 : a.length + l - (a ++ raw (l + r)).length = 0 := by
    simp
  rw [h0, Nat.add_sub_cancel_left]
  simp

end Store

end OpenBinder.Lib
