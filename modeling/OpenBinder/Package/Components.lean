import OpenBinder.Lib.Lists
import OpenBinder.Lib.Word
import Mathlib.Data.List.Induction
import Mathlib.Data.List.Pairwise
import Mathlib.Data.Prod.Lex

/-!
# The components of packages

A component id may be declared by more than one package. The package manager keeps all components
of an id in a chain, the one that it resolves to at the front, and puts a new one in by comparing
it with those that are there.

* `onDeclareComponent`: a component put into the chain of its id.
* `Resolved`: every id is resolved as documented, by the highest version, then the shortest local
  name, which is that of the most specific package, then the latest modification.
* `resolved_iff`: **the declarations are resolved so in whatever order** exactly if no two of one id
  and version have local names of different lengths. The comparison takes the longer ones for the
  more specific.
-/

namespace OpenBinder

open Lib Function List

/-- `BPackageManager::Component`, but for its package and the rest of its value. -/
structure Component (I : Type*) where
  id : I
  localName : List Byte
  version : BitVec 32
  modified : ℤ
deriving Inhabited

structure ComponentVersionInfo where
  version : BitVec 32
  localLength : ℤ
  modified : ℤ

namespace ComponentVersionInfo

variable {I : Type*}

def ofComponent (component : Component I) : ComponentVersionInfo where
  version := component.version
  localLength := component.localName.length
  modified := component.modified

def compareStrict (info o : ComponentVersionInfo) : ℤ :=
  if info.version ≠ o.version then if o.version < info.version then 1 else -1
  else if info.localLength ≠ o.localLength then if o.localLength < info.localLength then 1 else -1
  else 0

def compare (info o : ComponentVersionInfo) : ℤ :=
  let res := info.compareStrict o
  if res ≠ 0 then res
  else if info.modified ≠ o.modified then if o.modified < info.modified then 1 else -1
  else 0

/-- What is compared, as one key. -/
def key (info : ComponentVersionInfo) : ℕ ×ₗ ℤ ×ₗ ℤ :=
  toLex (info.version.toNat, toLex (info.localLength, info.modified))

theorem ite_neg_iff {α : Type*} [LinearOrder α] (a b : α) (k : ℤ) :
    (if a ≠ b then if b < a then 1 else -1 else k) < 0 ↔ a < b ∨ a = b ∧ k < 0 := by
  rcases lt_trichotomy a b with h | h | h
  · simp [h, h.ne, h.not_gt]
  · simp [h]
  · simp [h, h.ne', h.not_gt]

theorem compare_eq (info o : ComponentVersionInfo) :
    info.compare o =
      if info.version.toNat ≠ o.version.toNat then
        if o.version.toNat < info.version.toNat then 1 else -1
      else if info.localLength ≠ o.localLength then
        if o.localLength < info.localLength then 1 else -1
      else if info.modified ≠ o.modified then if o.modified < info.modified then 1 else -1
      else 0 := by
  unfold compare compareStrict
  simp only [ne_eq, BitVec.toNat_inj, BitVec.lt_def]
  by_cases hv : info.version = o.version
  · by_cases hl : info.localLength = o.localLength
    · simp [hv, hl]
    · by_cases hlt : o.localLength < info.localLength <;> simp [hv, hl, hlt]
  · by_cases hlt : o.version.toNat < info.version.toNat <;> simp [hv, hlt]

theorem compare_neg_iff (info o : ComponentVersionInfo) :
    info.compare o < 0 ↔ info.key < o.key := by
  unfold key
  rw [compare_eq, ite_neg_iff, ite_neg_iff, ite_neg_iff, Prod.Lex.toLex_lt_toLex,
    Prod.Lex.toLex_lt_toLex]
  simp

end ComponentVersionInfo

/-- The components declared, with `m_prev` and `m_next`, and the one that every id resolves to. A
component is its number, in the order they are declared in. -/
structure Components (I : Type*) where
  count : ℕ
  info : ℕ → Component I
  prev : ℕ → Option ℕ
  next : ℕ → Option ℕ
  components : I → Option ℕ

namespace Components

open ComponentVersionInfo (ofComponent)

variable {I : Type*}

def init [Inhabited I] : Components I where
  count := 0
  info := fun _ => default
  prev := fun _ => none
  next := fun _ => none
  components := fun _ => none

/-- `oldVersion` at a component. -/
def versionAt (s : Components I) (n : ℕ) : ComponentVersionInfo := ofComponent (s.info n)

/-- `oldVersion` after a turn. It is read anew only where there is a component. -/
def nextVersion (s : Components I) (oldVersion : ComponentVersionInfo) :
    Option ℕ → ComponentVersionInfo
  | none => oldVersion
  | some pos => s.versionAt pos

/-- The walk of `OnDeclareComponent`, for a number of turns: the component that it stops at, and the
one before that. -/
def walk (s : Components I) (newVersion : ComponentVersionInfo) :
    ℕ → Option ℕ → Option ℕ → ComponentVersionInfo → Option ℕ × Option ℕ
  | _, none, prevPos, _ => (none, prevPos)
  | 0, some pos, prevPos, _ => (some pos, prevPos)
  | n + 1, some pos, prevPos, oldVersion =>
    if newVersion.compare oldVersion < 0 then
      walk s newVersion n (s.prev pos) (some pos) (s.nextVersion oldVersion (s.prev pos))
    else (some pos, prevPos)

variable [DecidableEq I]

/-- `OnDeclareComponent`, but for what it prints. -/
def onDeclareComponent (s : Components I) (component : Component I) : Components I :=
  let new := s.count
  let s₁ := { s with count := s.count + 1, info := update s.info new component }
  match s.components component.id with
  | none => { s₁ with components := update s₁.components component.id (some new) }
  | some old =>
    let (pos, prevPos) :=
      s₁.walk (ofComponent component) s.count (some old) none (s₁.versionAt old)
    let s₂ := match pos with
      | none => s₁
      | some pos =>
        { s₁ with
          prev := update s₁.prev new (some pos)
          next := update s₁.next pos (some new) }
    match prevPos with
    | none => { s₂ with components := update s₂.components component.id (some new) }
    | some p =>
      { s₂ with
        next := update s₂.next new (some p)
        prev := update s₂.prev p (some new) }

/-- All declarations, in the order that they are received in. -/
def declareAll [Inhabited I] (components : List (Component I)) : Components I :=
  components.foldl onDeclareComponent init

/-- **The documented preference**: the higher version, then the more specific package, which is the
one with the shorter local name, then the later modification. -/
def Preferred (a b : Component I) : Prop :=
  b.version < a.version ∨ a.version = b.version ∧
    (a.localName.length < b.localName.length ∨
      a.localName.length = b.localName.length ∧ b.modified < a.modified)

instance (a b : Component I) : Decidable (Preferred a b) := inferInstanceAs (Decidable (_ ∨ _))

/-- **Every id is resolved** to a component of it that no other one is preferred to, and all others
are linked from it, each once and none preferred to one before it, in both directions. -/
def Resolved (s : Components I) : Prop :=
  ∀ id, ∃ l : List ℕ, Linked s.prev (s.components id) l ∧ Linked s.next l.getLast? l.reverse ∧
    l.Nodup ∧ (∀ n, n ∈ l ↔ n < s.count ∧ (s.info n).id = id) ∧
    l.Pairwise fun m n => ¬Preferred (s.info n) (s.info m)

/-- **No two declarations** of one id and version have local names of different lengths. -/
def SameLength (components : List (Component I)) : Prop :=
  components.Pairwise fun a b =>
    a.id = b.id → a.version = b.version → a.localName.length = b.localName.length

/-! ### The chain of an id -/

variable {s : Components I} {c : Component I}

/-- The pointers of the chains. They are followed by `m_prev`. -/
def pointers (s : Components I) : Lists I ℕ := ⟨s.prev, s.next, s.components⟩

omit [DecidableEq I] in
/-- **The walk stops** between the components that the new one is less than and the others. -/
theorem walk_eq (s : Components I) (v : ComponentVersionInfo) :
    ∀ (l : List ℕ) (n : ℕ) (pos prevPos : Option ℕ) (old : ComponentVersionInfo),
      Linked s.prev pos l → l.length ≤ n → (∀ m ∈ pos, old = s.versionAt m) →
      ∃ x y, l = x ++ y ∧ s.walk v n pos prevPos old = (y.head?, x.getLast?.or prevPos) ∧
        (∀ m ∈ x, v.key < (s.versionAt m).key) ∧ ∀ m ∈ y.head?, (s.versionAt m).key ≤ v.key := by
  intro l
  induction l with
  | nil =>
    intro n pos prevPos old hl _ _
    rw [linked_nil] at hl
    subst hl
    refine ⟨[], [], rfl, ?_, by simp, by simp⟩
    cases n <;> rfl
  | cons a l ih =>
    intro n pos prevPos old hl hn hold
    obtain ⟨rfl, hl⟩ := hl
    obtain ⟨n, rfl⟩ : ∃ k, n = k + 1 := ⟨n - 1, by simp at hn; omega⟩
    obtain rfl := hold a rfl
    by_cases hlt : v.compare (s.versionAt a) < 0
    · have hnext : ∀ m ∈ s.prev a, s.nextVersion (s.versionAt a) (s.prev a) = s.versionAt m := by
        intro m hm
        rw [Option.mem_def.1 hm]
        rfl
      obtain ⟨x, y, rfl, hwalk, hx, hy⟩ :=
        ih n (s.prev a) (some a) _ hl (Nat.le_of_succ_le_succ hn) hnext
      refine ⟨a :: x, y, rfl, ?_, ?_, hy⟩
      · rw [walk, if_pos hlt]
        refine hwalk.trans ?_
        rw [List.getLast?_cons]
        cases x.getLast? <;> rfl
      · intro m hm
        rcases mem_cons.1 hm with rfl | hm
        · exact (ComponentVersionInfo.compare_neg_iff _ _).1 hlt
        · exact hx m hm
    · refine ⟨[], a :: l, rfl, ?_, by simp, ?_⟩
      · rw [walk, if_neg hlt]
        rfl
      · intro m hm
        obtain ⟨⟩ := hm
        exact not_lt.1 fun h => hlt ((ComponentVersionInfo.compare_neg_iff _ _).2 h)

/-- What a declaration adds, before it is put into a chain. -/
def grown (s : Components I) (c : Component I) : Components I :=
  { s with count := s.count + 1, info := update s.info s.count c }

/-- **The new component between two** of the chain, or before or behind all of it. -/
theorem onDeclareComponent_eq {pos prevPos : Option ℕ} (hprev : s.prev s.count = none)
    (hnext : s.next s.count = none) (hpos : pos ≠ some s.count)
    (h : s.components c.id = none ∧ pos = none ∧ prevPos = none ∨
      ∃ old, s.components c.id = some old ∧ (s.grown c).walk (ofComponent c) s.count (some old) none
        ((s.grown c).versionAt old) = (pos, prevPos)) :
    s.onDeclareComponent c =
      { s.grown c with
        prev := Linked.setAt (update s.prev s.count pos) prevPos (some s.count)
        next := update (Linked.setAt s.next pos (some s.count)) s.count prevPos
        components := update s.components c.id
          (if prevPos = none then some s.count else s.components c.id) } := by
  have hself : update s.prev s.count none = s.prev :=
    Linked.update_unlisted (p := none) (u := none) hprev (by simp)
  have hkeep : update (Linked.setAt s.next pos (some s.count)) s.count none =
      Linked.setAt s.next pos (some s.count) := Linked.update_unlisted hnext hpos
  rcases h with ⟨hc, rfl, rfl⟩ | ⟨old, hc, hwalk⟩
  · rw [onDeclareComponent, hc, if_pos rfl, hkeep, hself]
    rfl
  · have hwalk' := hwalk
    unfold grown at hwalk'
    rw [onDeclareComponent, hc]
    dsimp only
    rw [hwalk']
    cases prevPos with
    | none =>
      rw [if_pos rfl, hkeep]
      cases pos with
      | none =>
        rw [hself]
        rfl
      | some pos => rfl
    | some p =>
      rw [if_neg (by simp), ← hc, update_eq_self]
      cases pos with
      | none =>
        rw [hself]
        rfl
      | some pos => rfl

/-- **The chains of the components declared**: each has all of its id, and none has a greater key
than the one before it. -/
structure Holds (s : Components I) (components : List (Component I)) (seq : I → List ℕ) : Prop where
  links : s.pointers.Holds seq
  count : s.count = components.length
  info : ∀ n < s.count, components[n]? = some (s.info n)
  mem : ∀ id n, n ∈ seq id ↔ n < s.count ∧ (s.info n).id = id
  sorted : ∀ id, (seq id).Pairwise fun m n => (s.versionAt n).key ≤ (s.versionAt m).key

variable {components : List (Component I)} {seq : I → List ℕ}

omit [DecidableEq I] in
theorem Holds.init [Inhabited I] : (init : Components I).Holds [] fun _ => [] where
  links := ⟨fun _ => rfl, fun _ => rfl, fun _ _ _ h => (not_mem_nil h).elim,
    fun _ _ => ⟨rfl, rfl⟩⟩
  count := rfl
  info := fun n hn => (Nat.not_lt_zero n hn).elim
  mem := fun _ n => ⟨fun h => (not_mem_nil h).elim, fun h => (Nat.not_lt_zero n h.1).elim⟩
  sorted := fun _ => .nil

omit [DecidableEq I] in
theorem Holds.length_le (h : s.Holds components seq) (id : I) : (seq id).length ≤ s.count := by
  have hsub : seq id ⊆ List.range s.count := fun n hn =>
    mem_range.2 ((h.mem id n).1 hn).1
  have := (h.links.nodup id).length_le_of_subset hsub
  rwa [length_range] at this

omit [DecidableEq I] in
theorem grown_info {n : ℕ} (hn : n < s.count) : (s.grown c).info n = s.info n :=
  update_of_ne (Nat.ne_of_lt hn) _ _

omit [DecidableEq I] in
theorem Holds.place (h : s.Holds components seq) (c : Component I) :
    ∃ x y, seq c.id = x ++ y ∧
      (s.components c.id = none ∧ y.head? = none ∧ x.getLast? = none ∨
        ∃ old, s.components c.id = some old ∧ (s.grown c).walk (ofComponent c) s.count (some old)
          none ((s.grown c).versionAt old) = (y.head?, x.getLast?)) ∧
      (∀ m ∈ x, (ofComponent c).key < (s.versionAt m).key) ∧
      ∀ m ∈ y, (s.versionAt m).key ≤ (ofComponent c).key := by
  have hold : ∀ m ∈ seq c.id, (s.grown c).versionAt m = s.versionAt m := fun m hm =>
    congrArg ofComponent (grown_info ((h.mem _ m).1 hm).1)
  have hhead := h.links.head c.id
  obtain ⟨x, y, hxy, hwalk, hx, hy⟩ := walk_eq (s.grown c) (ofComponent c) (seq c.id) s.count
    (s.components c.id) none ((s.grown c).versionAt ((s.components c.id).getD 0))
    (h.links.forward c.id) (h.length_le c.id) fun m hm => by rw [Option.mem_def.1 hm]; rfl
  refine ⟨x, y, hxy, ?_, ?_, ?_⟩
  · cases hc : s.components c.id with
    | none =>
      have hnil : seq c.id = [] := by
        rw [← List.head?_eq_none_iff, ← hhead]
        exact hc
      rw [hnil, eq_comm, append_eq_nil_iff] at hxy
      rw [hxy.1, hxy.2]
      exact .inl ⟨rfl, rfl, rfl⟩
    | some old =>
      rw [hc, Option.or_none] at hwalk
      exact .inr ⟨old, rfl, hwalk⟩
  · intro m hm
    rw [← hold m (by rw [hxy]; exact mem_append_left y hm)]
    exact hx m hm
  · intro m hm
    -- the walk compares with the first of the others only, which is the greatest
    have hsort := h.sorted c.id
    rw [hxy] at hsort
    cases y with
    | nil => exact (not_mem_nil hm).elim
    | cons b y =>
      have hb : (s.versionAt b).key ≤ (ofComponent c).key := by
        rw [← hold b (by rw [hxy]; simp)]
        exact hy b rfl
      rcases mem_cons.1 hm with rfl | hm
      · exact hb
      · exact ((pairwise_cons.1 (pairwise_append.1 hsort).2.1).1 m hm).trans hb

theorem Holds.onDeclareComponent (h : s.Holds components seq) (c : Component I) :
    ∃ seq', (s.onDeclareComponent c).Holds (components ++ [c]) seq' := by
  obtain ⟨x, y, hxy, hplace, hx, hy⟩ := h.place c
  have hnew : ∀ id, s.count ∉ seq id := fun id hmem => absurd ((h.mem id _).1 hmem).1 (by simp)
  obtain ⟨hprev, hnext⟩ := h.links.rest s.count hnew
  have hxn : x.getLast? ≠ some s.count := fun hl => hnew c.id
    (by rw [hxy]; exact mem_append_left y (mem_of_getLast? hl))
  have hyn : y.head? ≠ some s.count := fun hl => hnew c.id
    (by rw [hxy]; exact mem_append_right x (mem_of_mem_head? hl))
  have heq := onDeclareComponent_eq hprev hnext hyn hplace
  have hinfo : ∀ n < s.count, (s.onDeclareComponent c).info n = s.info n := fun n hn => by
    rw [heq]
    exact grown_info hn
  have hinfo_new : (s.onDeclareComponent c).info s.count = c := by
    rw [heq]
    exact update_self _ _ _
  have hversion_new : (s.onDeclareComponent c).versionAt s.count = ofComponent c :=
    congrArg ofComponent hinfo_new
  have hcount : (s.onDeclareComponent c).count = s.count + 1 := by
    rw [heq]
    rfl
  refine ⟨update seq c.id (x ++ s.count :: y), ?_, ?_, ?_, ?_, ?_⟩
  · refine h.links.insert hxy hnew ?_ ?_ ?_
    · rw [heq]
      exact Linked.setAt_update hxn
    · rw [heq]
      rfl
    · rw [heq]
      simp only [pointers, List.getLast?_eq_none_iff]
  · rw [hcount, h.count, length_append, length_singleton]
  · intro n hn
    rw [hcount] at hn
    rcases Nat.lt_succ_iff_lt_or_eq.1 hn with hn | rfl
    · rw [hinfo n hn, List.getElem?_append_left (by rw [← h.count]; exact hn), h.info n hn]
    · rw [hinfo_new, h.count, List.getElem?_concat_length]
  · intro id n
    rw [hcount, Nat.lt_succ_iff_lt_or_eq]
    have hcases : ∀ id, n ∈ update seq c.id (x ++ s.count :: y) id ↔
        n ∈ seq id ∨ n = s.count ∧ id = c.id := by
      intro id
      by_cases hid : id = c.id
      · subst hid
        rw [update_self, hxy]
        simp only [mem_append, mem_cons]
        tauto
      · rw [update_of_ne hid]
        tauto
    rw [hcases, h.mem]
    by_cases hn : n = s.count
    · subst hn
      rw [hinfo_new]
      constructor
      · rintro (⟨hlt, -⟩ | ⟨-, hid⟩)
        · exact (Nat.lt_irrefl _ hlt).elim
        · exact ⟨.inr rfl, hid.symm⟩
      · rintro ⟨-, hid⟩
        exact .inr ⟨rfl, hid.symm⟩
    · constructor
      · rintro (⟨hlt, hid⟩ | ⟨hcount, -⟩)
        · exact ⟨.inl hlt, by rw [hinfo n hlt]; exact hid⟩
        · exact (hn hcount).elim
      · rintro ⟨hlt | hcount, hid⟩
        · exact .inl ⟨hlt, by rw [hinfo n hlt] at hid; exact hid⟩
        · exact (hn hcount).elim
  · have hkeep : ∀ id, (seq id).Pairwise fun m n =>
        ((s.onDeclareComponent c).versionAt n).key ≤ ((s.onDeclareComponent c).versionAt m).key :=
      fun id => (h.sorted id).imp_of_mem fun {m n} hm hn hle => by
        rwa [versionAt, versionAt, hinfo m ((h.mem id m).1 hm).1, hinfo n ((h.mem id n).1 hn).1]
    intro id
    by_cases hid : id = c.id
    · subst hid
      rw [update_self]
      have hxy' := hkeep c.id
      rw [hxy, pairwise_append] at hxy'
      have hin : ∀ m ∈ x ++ y, (s.onDeclareComponent c).versionAt m = s.versionAt m := fun m hm =>
        congrArg ofComponent (hinfo m ((h.mem c.id m).1 (by rw [hxy]; exact hm)).1)
      rw [pairwise_append, pairwise_cons]
      refine ⟨hxy'.1, ⟨fun m hm => ?_, hxy'.2.1⟩, fun m hm n hn => ?_⟩
      · rw [hin m (mem_append_right x hm), hversion_new]
        exact hy m hm
      · rcases mem_cons.1 hn with rfl | hn
        · rw [hin m (mem_append_left y hm), hversion_new]
          exact (hx m hm).le
        · exact hxy'.2.2 m hm n hn
    · rw [update_of_ne hid]
      exact hkeep id

theorem declareAll_holds [Inhabited I] (components : List (Component I)) :
    ∃ seq, (declareAll components).Holds components seq := by
  induction components using List.reverseRecOn with
  | nil => exact ⟨_, Holds.init⟩
  | append_singleton components c ih =>
    obtain ⟨seq, h⟩ := ih
    rw [declareAll, foldl_append]
    exact h.onDeclareComponent c

/-! ### What an id is resolved to -/

omit [DecidableEq I] in
theorem key_le_iff (a b : Component I) : (ofComponent a).key ≤ (ofComponent b).key ↔
    a.version < b.version ∨ a.version = b.version ∧
      (a.localName.length < b.localName.length ∨
        a.localName.length = b.localName.length ∧ a.modified ≤ b.modified) := by
  unfold ComponentVersionInfo.key
  rw [Prod.Lex.toLex_le_toLex, Prod.Lex.toLex_le_toLex, BitVec.lt_def, ← BitVec.toNat_inj]
  simp [ofComponent]

omit [DecidableEq I] in
theorem not_preferred_of_key_le {a b : Component I}
    (hlength : a.version = b.version → a.localName.length = b.localName.length)
    (hkey : (ofComponent a).key ≤ (ofComponent b).key) : ¬Preferred a b := by
  rw [key_le_iff] at hkey
  rintro (hv | ⟨hv, hrest⟩)
  · rcases hkey with hlt | ⟨heq, -⟩
    · exact absurd (BitVec.lt_def.1 hv) (Nat.lt_asymm (BitVec.lt_def.1 hlt))
    · exact absurd hv (by rw [heq]; exact BitVec.lt_irrefl _)
  · have hl := hlength hv
    rcases hkey with hlt | ⟨-, hk⟩
    · exact absurd hlt (by rw [hv]; exact BitVec.lt_irrefl _)
    · omega

omit [DecidableEq I] in
/-- If the greater key is as preferred, then local names are of one length. -/
theorem length_eq_of_key_le {a b : Component I} (hkey : (ofComponent a).key ≤ (ofComponent b).key)
    (hnot : ¬Preferred a b) (hv : a.version = b.version) :
    a.localName.length = b.localName.length := by
  rw [key_le_iff] at hkey
  rcases hkey with hlt | ⟨-, hlt | ⟨heq, -⟩⟩
  · exact absurd hlt (by rw [hv]; exact BitVec.lt_irrefl _)
  · exact absurd (.inr ⟨hv, .inl hlt⟩) hnot
  · exact heq

omit [DecidableEq I] in
theorem Holds.sameLength_iff (h : s.Holds components seq) : SameLength components ↔
    ∀ m < s.count, ∀ n < s.count, (s.info m).id = (s.info n).id →
      (s.info m).version = (s.info n).version →
      (s.info m).localName.length = (s.info n).localName.length := by
  have hget {m : ℕ} (hm : m < s.count) (hm' : m < components.length) : components[m] = s.info m :=
    Option.some.inj ((List.getElem?_eq_getElem hm').symm.trans (h.info m hm))
  unfold SameLength
  rw [pairwise_iff_getElem]
  constructor
  · intro hpair m hm n hn hid hv
    have hm' := h.count ▸ hm
    have hn' := h.count ▸ hn
    rcases Nat.lt_trichotomy m n with hmn | rfl | hmn
    · have := hpair m n hm' hn' hmn
      rw [hget hm, hget hn] at this
      exact this hid hv
    · rfl
    · have := hpair n m hn' hm' hmn
      rw [hget hm, hget hn] at this
      exact (this hid.symm hv.symm).symm
  · intro hall m n hm' hn' hmn
    have hm := h.count.symm ▸ hm'
    have hn := h.count.symm ▸ hn'
    rw [hget hm, hget hn]
    exact hall m hm n hn

/-- **Every id is resolved as documented**, in whatever order the packages are scanned, exactly if
no two components of one id and version have local names of different lengths. -/
theorem resolved_iff [Inhabited I] (components : List (Component I)) :
    Resolved (declareAll components) ↔ SameLength components := by
  obtain ⟨seq, h⟩ := declareAll_holds components
  rw [h.sameLength_iff]
  constructor
  · intro hres m hm n hn hid hv
    obtain ⟨l, hfwd, -, -, hmem, hpref⟩ := hres ((declareAll components).info n).id
    obtain rfl := hfwd.unique (h.links.forward _)
    let R : ℕ → ℕ → Prop := fun a b =>
      ((declareAll components).info b).version = ((declareAll components).info a).version →
        ((declareAll components).info b).localName.length =
          ((declareAll components).info a).localName.length
    have hsymm : Std.Symm R := ⟨fun a b hab hv => (hab hv.symm).symm⟩
    -- the key and the preference agree on every two of the chain, whichever comes first
    have hpair : (seq ((declareAll components).info n).id).Pairwise R :=
      ((h.sorted _).and hpref).imp fun {a b} hab hv =>
        length_eq_of_key_le (a := (declareAll components).info b)
          (b := (declareAll components).info a) hab.1 hab.2 hv
    exact hpair.forall_of_forall (fun _ _ _ => rfl) ((hmem n).2 ⟨hn, rfl⟩)
      ((hmem m).2 ⟨hm, hid⟩) hv
  · intro hlength id
    refine ⟨seq id, h.links.forward id, h.links.backward id, h.links.nodup id, h.mem id, ?_⟩
    refine (h.sorted id).imp_of_mem fun {m n} hm hn hkey => ?_
    obtain ⟨hm, hmid⟩ := (h.mem id m).1 hm
    obtain ⟨hn, hnid⟩ := (h.mem id n).1 hn
    exact not_preferred_of_key_le (hlength n hn m hm (hnid.trans hmid.symm)) hkey

/-- A name, as its bytes. -/
def name (text : String) : List Byte := text.toList.map fun c => BitVec.ofNat 8 c.toNat

/-- A button declared by two packages, the name of one within that of the other. -/
def buttons : List (Component (List Byte)) :=
  [⟨name "org.openbinder.widgets.Button", name "Button", 1, 0⟩,
    ⟨name "org.openbinder.widgets.Button", name "widgets.Button", 1, 0⟩]

/-- The id is resolved to the button of the less specific package. -/
theorem buttons_resolved :
    (declareAll buttons).components (name "org.openbinder.widgets.Button") = some 1 ∧
      Preferred buttons[0] buttons[1] ∧ ¬Resolved (declareAll buttons) := by
  refine ⟨by decide, by decide, fun hres => ?_⟩
  obtain ⟨l, hfwd, -, -, -, hpref⟩ := hres (name "org.openbinder.widgets.Button")
  have hl : Linked (declareAll buttons).prev
      ((declareAll buttons).components (name "org.openbinder.widgets.Button")) [1, 0] :=
    ⟨by decide, by decide, (linked_nil _ _).2 (by decide)⟩
  rw [hfwd.unique hl, pairwise_pair] at hpref
  exact hpref (by decide)

end Components

end OpenBinder
