import OpenBinder.Driver.Transaction

/-!
# Where the driver reaches in a transaction's data

The buffer is as large as the two aligned sizes together, which are added as 32-bit words and
may wrap around. That an object lies in the data is not enforced: a failing `BND_ASSERT` prints
something, and its own subtraction wraps around for less data than an object has.

* `data_bounded_iff`: what is copied lies in the buffer, and every object that is looked at lies
  in the data, exactly when the aligned sizes do not wrap around and every offset of the user
  leaves room for an object.
-/

namespace OpenBinder

open Lib List BitVec

variable {P σ : Type}

/-- A size rounded up to words. -/
def roundUp (n : ℕ) : ℕ := (n + 3) / 4 * 4

theorem intAlign_toNat (x : BitVec 32) : (intAlign x).toNat = roundUp x.toNat % 2 ^ 32 := by
  have hshift : intAlign x = ((x + 3) >>> 2) <<< 2 := by
    unfold intAlign
    apply eq_of_getLsbD_eq
    intro i hi
    simp only [getLsbD_and, getLsbD_not, getLsbD_shiftLeft,
      getLsbD_ushiftRight, hi]
    by_cases h : i < 2
    · have : i = 0 ∨ i = 1 := by omega
      rcases this with rfl | rfl <;> simp
    · have h3 : (3#32).getLsbD i = false := by
        rw [getLsbD_ofNat, Nat.testBit_lt_two_pow (x := 3) (i := i), Bool.and_false]
        exact lt_of_lt_of_le (by decide) (Nat.pow_le_pow_right (by decide) (by omega : 2 ≤ i))
      have hi2 : 2 + (i - 2) = i := by omega
      simp [h, h3, hi2]
  unfold roundUp
  rw [hshift, toNat_shiftLeft, toNat_ushiftRight, toNat_add,
    Nat.shiftRight_eq_div_pow, Nat.shiftLeft_eq, show (3 : BitVec 32).toNat = 3 from rfl]
  omega

namespace Transaction

variable (t : Transaction)

/-- The two aligned sizes, which are added. -/
def wanted : ℕ := roundUp t.dataSize.toNat + roundUp t.offsetsSize.toNat

theorem size_toNat : t.size.toNat = t.wanted % 2 ^ 32 := by
  unfold size wanted
  rw [toNat_add, intAlign_toNat, intAlign_toNat]
  omega

/-! ### The copies -/

/-- What `binder_transaction_CopyTransactionData` asks for. -/
structure Accepted (c : CopyCall) : Prop where
  limit : t.size < c.failSize
  order : calcOrderFromSize t.size.toNat < maxOrder
  pages : c.available (calcOrderFromSize t.size.toNat) = true
  data : Readable c.user t.dataPtr t.dataSize.toNat
  offsets : t.offsetsSize ≠ 0 → Readable c.user t.offsetsPtr t.offsetsSize.toNat

/-- The buffer after the copies. -/
def copied (c : CopyCall) : Memory :=
  let m := copyFromUser c.user c.memory 0 t.dataPtr t.dataSize.toNat
  if t.offsetsSize ≠ 0 then copyFromUser c.user m t.offsets t.offsetsPtr t.offsetsSize.toNat else m

theorem copyTransactionData_eq_some {c : CopyCall} {buffer : ℕ} {m : Memory} :
    t.copyTransactionData c = some (buffer, m) ↔
      t.Accepted c ∧ buffer = 2 ^ calcOrderFromSize t.size.toNat * 4096 ∧ m = t.copied c := by
  unfold copyTransactionData allocateTransactionBuffer copied
  by_cases hl : c.failSize ≤ t.size
  · rw [if_pos hl]
    exact ⟨fun h => (by cases h), fun ⟨h, _⟩ => absurd h.limit (BitVec.not_lt.2 hl)⟩
  rw [if_neg hl]
  by_cases ho : calcOrderFromSize t.size.toNat < maxOrder ∧
      c.available (calcOrderFromSize t.size.toNat) = true
  · rw [if_pos ho]
    dsimp only
    by_cases hd : Readable c.user t.dataPtr t.dataSize.toNat
    · rw [if_pos hd]
      by_cases hn : t.offsetsSize ≠ 0
      · rw [if_pos hn, if_pos hn]
        by_cases hr : Readable c.user t.offsetsPtr t.offsetsSize.toNat
        · rw [if_pos hr]
          simp only [Option.some.injEq, Prod.mk.injEq]
          exact ⟨fun ⟨h1, h2⟩ => ⟨⟨BitVec.not_le.1 hl, ho.1, ho.2, hd, fun _ => hr⟩, h1.symm, h2.symm⟩,
            fun ⟨_, h1, h2⟩ => ⟨h1.symm, h2.symm⟩⟩
        · rw [if_neg hr]
          exact ⟨fun h => (by cases h), fun ⟨h, _⟩ => absurd (h.offsets hn) hr⟩
      · rw [if_neg hn, if_neg hn]
        simp only [Option.some.injEq, Prod.mk.injEq]
        exact ⟨fun ⟨h1, h2⟩ => ⟨⟨BitVec.not_le.1 hl, ho.1, ho.2, hd, fun h => absurd h hn⟩, h1.symm,
          h2.symm⟩, fun ⟨_, h1, h2⟩ => ⟨h1.symm, h2.symm⟩⟩
    · rw [if_neg hd]
      exact ⟨fun h => (by cases h), fun ⟨h, _⟩ => absurd h.data hd⟩
  · rw [if_neg ho]
    exact ⟨fun h => (by cases h), fun ⟨h, _⟩ => absurd ⟨h.order, h.pages⟩ ho⟩

/-- **The copies lie in the buffer.** -/
def CopiesInside (buffer : ℕ) : Prop :=
  ∀ r ∈ t.copies, ∀ i < r.2, (r.1 + BitVec.ofNat 32 i).toNat < buffer

theorem le_buffer (n : ℕ) : n ≤ 2 ^ calcOrderFromSize n * 4096 := by
  have h := Nat.le_pow_clog (b := 2) (by omega) ((n + 4095) / 4096)
  unfold calcOrderFromSize
  omega

/-- **The copies lie in the buffer** exactly when the sizes do not wrap around. -/
theorem copiesInside_iff (ho : calcOrderFromSize t.size.toNat < maxOrder) :
    t.CopiesInside (2 ^ calcOrderFromSize t.size.toNat * 4096) ↔ t.wanted < 2 ^ 32 := by
  have hle := le_buffer t.size.toNat
  have hpow : 2 ^ calcOrderFromSize t.size.toNat ≤ 1024 :=
    Nat.pow_le_pow_right (by decide) (Nat.le_of_lt_succ ho : _ ≤ 10)
  have hlt : 2 ^ calcOrderFromSize t.size.toNat * 4096 ≤ 4194304 := by omega
  generalize 2 ^ calcOrderFromSize t.size.toNat * 4096 = buffer at hle hlt ⊢
  have hsize := t.size_toNat
  have halign := intAlign_toNat t.dataSize
  unfold CopiesInside copies
  unfold wanted at *
  have hdata : (∀ i < t.dataSize.toNat, ((0 : BitVec 32) + BitVec.ofNat 32 i).toNat < buffer) ↔
      t.dataSize.toNat ≤ buffer := by
    have hi : ∀ i < t.dataSize.toNat, ((0 : BitVec 32) + BitVec.ofNat 32 i).toNat = i := by
      intro i hi
      rw [show (0 : BitVec 32) + BitVec.ofNat 32 i = BitVec.ofNat 32 i from BitVec.zero_add _,
        toNat_ofNat]
      omega
    constructor
    · intro h
      by_contra hlt
      have := h buffer (by omega)
      rw [hi _ (by omega)] at this
      omega
    · intro h i hlt
      rw [hi i hlt]
      omega
  rw [forall_mem_cons, hdata]
  unfold roundUp at *
  constructor
  · rintro ⟨h1, h2⟩
    by_contra hwrap
    -- there are more bytes of offsets than the buffer has
    have h0 : t.offsetsSize ≠ 0 := by
      intro h0
      rw [h0, show (0 : BitVec 32).toNat = 0 from rfl] at hwrap
      omega
    rw [if_pos h0, forall_mem_singleton] at h2
    have hat := h2 buffer (by simp only; omega)
    simp only [offsets, toNat_add, halign, toNat_ofNat] at hat
    omega
  · intro h
    refine ⟨by omega, fun r hr i hi => ?_⟩
    split at hr
    · obtain rfl := mem_singleton.1 hr
      simp only [offsets, toNat_add, halign, toNat_ofNat] at hi ⊢
      omega
    · cases hr

/-! ### The offsets -/

/-- A word that the user has. -/
def userWord (user : UserMemory) (a : BitVec 32) : BitVec 32 :=
  wordOf [(user a).getD 0, (user (a + 1)).getD 0, (user (a + 2)).getD 0, (user (a + 3)).getD 0]

theorem word_copied (c : CopyCall) (hw : t.wanted < 2 ^ 32) {i : ℕ}
    (hi : i < t.count) :
    (t.copied c).word (t.offsets + BitVec.ofNat 32 (4 * i)) =
      userWord c.user (t.offsetsPtr + BitVec.ofNat 32 (4 * i)) := by
  have hn : t.offsetsSize ≠ 0 := by
    rintro h0
    unfold count at hi
    rw [h0] at hi
    exact absurd hi (Nat.not_lt_zero i)
  have halign := intAlign_toNat t.dataSize
  unfold count at hi
  unfold wanted roundUp at hw
  unfold roundUp at halign
  unfold copied copyFromUser
  rw [if_pos hn, Memory.word_fill _ _ (by omega) (by unfold offsets; omega)]
  have hadd : ∀ j, t.offsetsPtr + BitVec.ofNat 32 (4 * i) + BitVec.ofNat 32 j =
      t.offsetsPtr + BitVec.ofNat 32 (4 * i + j) := fun j => by
    rw [BitVec.add_assoc, ← BitVec.ofNat_add]
  rw [← hadd, ← hadd, ← hadd]
  rfl

/-! ### The objects -/

/-- **An object lies in the data.** -/
def Inside (flat : BitVec 32) : Prop :=
  ∀ i < flatSize, (flat + BitVec.ofNat 32 i).toNat < t.dataSize.toNat

theorem inside_iff (flat : BitVec 32) :
    t.Inside flat ↔ flat.toNat + flatSize ≤ t.dataSize.toNat := by
  unfold Inside flatSize
  constructor
  · intro h
    by_contra hlt
    -- the first byte that is not in the data is one of the object, or the object starts there
    by_cases hle : t.dataSize.toNat ≤ flat.toNat
    · have := h 0 (by omega)
      rw [BitVec.add_zero] at this
      omega
    · have := h (t.dataSize.toNat - flat.toNat) (by omega)
      rw [toNat_add, toNat_ofNat] at this
      omega
  · intro h i hi
    rw [toNat_add, toNat_ofNat]
    omega

/-- Two states with the same words behind the data. -/
def Same (k k' : Kernel P σ) : Prop :=
  ∀ a : BitVec 32, t.dataSize.toNat ≤ a.toNat → a.toNat + 4 ≤ 2 ^ 32 →
    k'.memory.word a = k.memory.word a

variable {t}

theorem Same.trans {k k' k'' : Kernel P σ} (h : t.Same k k') (h' : t.Same k' k'') : t.Same k k'' :=
  fun a ha hle => (h' a ha hle).trans (h a ha hle)

variable {body : BitVec 32 → Kernel P σ → Bool × Kernel P σ}

theorem forEachObject_suffix (hbody : ∀ flat k, (body flat k).2.visited = k.visited) :
    ∀ (n : ℕ) (off : BitVec 32) (k : Kernel P σ),
      k.visited <:+ (forEachObject body n off k).2.visited := by
  intro n
  induction n with
  | zero => intro off k; exact suffix_refl _
  | succ n ih =>
    intro off k
    rw [forEachObject]
    have hv := hbody (k.memory.word off) { k with visited := k.memory.word off :: k.visited }
    generalize body (k.memory.word off) { k with visited := k.memory.word off :: k.visited } = r at hv
    obtain ⟨b, k₁⟩ := r
    have hs : k.visited <:+ k₁.visited := by
      rw [show k₁.visited = _ from hv]
      exact suffix_cons _ _
    cases b with
    | false => exact hs
    | true => exact hs.trans (ih (off + 4) k₁)

theorem forEachObject_same (hbody : ∀ flat k, Frame flat k (body flat k).2) :
    ∀ (n : ℕ) (off : BitVec 32) (k : Kernel P σ),
      (∀ flat ∈ (forEachObject body n off k).2.visited, t.Inside flat) →
        t.Same k (forEachObject body n off k).2 := by
  intro n
  induction n with
  | zero => intro off k _ _ _ _; rfl
  | succ n ih =>
    intro off k
    rw [forEachObject]
    have hf := hbody (k.memory.word off) { k with visited := k.memory.word off :: k.visited }
    generalize body (k.memory.word off) { k with visited := k.memory.word off :: k.visited } = r at hf
    obtain ⟨b, k₁⟩ := r
    have hmem : k.memory.word off ∈ k₁.visited := by
      rw [show k₁.visited = _ from hf.visited]
      exact mem_cons_self
    have hsame : t.Inside (k.memory.word off) → t.Same k k₁ := by
      intro hin a ha hle
      rw [inside_iff] at hin
      exact hf.memory (by omega) a hle (.inr (by omega))
    cases b with
    | false => exact fun h => hsame (h _ hmem)
    | true =>
      have hs := forEachObject_suffix (fun flat k => (hbody flat k).visited) n (off + 4) k₁
      exact fun h => (hsame (h _ (hs.subset hmem))).trans (ih (off + 4) k₁ h)

/-- **Offsets that all leave room for an object** keep a loop inside of the data. -/
theorem forEachObject_inside (hbody : ∀ flat k, Frame flat k (body flat k).2) :
    ∀ (n : ℕ) (off : BitVec 32) (k : Kernel P σ), t.dataSize.toNat ≤ off.toNat →
      off.toNat + 4 * n ≤ 2 ^ 32 → (∀ flat ∈ wordsAt k.memory off n, t.Inside flat) →
      (∀ flat ∈ k.visited, t.Inside flat) →
      ∀ flat ∈ (forEachObject body n off k).2.visited, t.Inside flat := by
  intro n
  induction n with
  | zero => intro off k _ _ _ h; exact h
  | succ n ih =>
    intro off k hle hlt hall hvis
    rw [wordsAt_succ, forall_mem_cons] at hall
    obtain ⟨hin, hall⟩ := hall
    rw [forEachObject]
    have hf := hbody (k.memory.word off) { k with visited := k.memory.word off :: k.visited }
    generalize body (k.memory.word off) { k with visited := k.memory.word off :: k.visited } = r at hf
    obtain ⟨b, k₁⟩ := r
    have hv : k₁.visited = k.memory.word off :: k.visited := hf.visited
    have hvis₁ : ∀ flat ∈ k₁.visited, t.Inside flat := by
      rw [hv]
      exact forall_mem_cons.2 ⟨hin, hvis⟩
    cases b with
    | false => exact hvis₁
    | true =>
      have hoff : n = 0 ∨ (off + 4).toNat = off.toNat + 4 := by
        rw [toNat_add, show (4 : BitVec 32).toNat = 4 from rfl]
        omega
      rcases hoff with rfl | hoff
      · exact hvis₁
      refine ih (off + 4) k₁ (by omega) (by omega) ?_ hvis₁
      -- the object lies in front of the offsets
      have hsame : wordsAt k₁.memory (off + 4) n = wordsAt k.memory (off + 4) n := by
        apply map_congr_left
        intro i hi
        have hi := mem_range.1 hi
        have ha : (off + 4 + BitVec.ofNat 32 (4 * i)).toNat = off.toNat + 4 + 4 * i := by
          rw [toNat_add, hoff, toNat_ofNat]
          omega
        rw [inside_iff] at hin
        exact hf.memory (by omega) _ (by omega) (.inr (by omega))
      rwa [hsame]

/-- A loop that refuses nothing and writes nothing looks at every object. -/
theorem forEachObject_all
    (hbody : ∀ flat k, (body flat k).1 = true ∧ (body flat k).2.memory = k.memory ∧
      (body flat k).2.visited = k.visited) :
    ∀ (n : ℕ) (off : BitVec 32) (k : Kernel P σ),
      ∀ flat ∈ wordsAt k.memory off n, flat ∈ (forEachObject body n off k).2.visited := by
  intro n
  induction n with
  | zero => intro off k flat h; cases h
  | succ n ih =>
    intro off k flat h
    obtain ⟨h1, h2, h3⟩ := hbody (k.memory.word off) { k with visited := k.memory.word off :: k.visited }
    rw [forEachObject]
    have hs := forEachObject_suffix (fun flat k => (hbody flat k).2.2) n (off + 4)
    generalize body (k.memory.word off) { k with visited := k.memory.word off :: k.visited } = r at h1 h2 h3
    obtain ⟨b, k₁⟩ := r
    subst h1
    rw [wordsAt_succ, mem_cons] at h
    rcases h with rfl | h
    · exact (hs k₁).subset (by rw [h3]; exact mem_cons_self)
    · exact ih (off + 4) k₁ flat (by rwa [h2])

/-! ### The life of a transaction -/

end Transaction

/-- The calls that convert a transaction, with the process that is given to them. -/
inductive Convert (P : Type) where
  | toNodes (p : P)
  | fromNodes (p : P)

namespace Transaction

/-- A transaction after one call. -/
def convert (ops : NodeOps P σ) (t : Transaction) (k : Kernel P σ) : Convert P → Kernel P σ
  | .toNodes p => (t.convertToNodes ops p k).2
  | .fromNodes p => (t.convertFromNodes ops p k).2

/-- A transaction that is copied, converted by some calls and destroyed. -/
def live (ops : NodeOps P σ) (t : Transaction) (calls : List (Convert P)) (m : Memory)
    (driver : σ) : Kernel P σ :=
  t.dtor ops (calls.foldl (t.convert ops) ⟨m, driver, none, []⟩)

variable {t : Transaction} {ops : NodeOps P σ}

theorem convert_suffix (k : Kernel P σ) (call : Convert P) :
    k.visited <:+ (t.convert ops k call).visited := by
  cases call with
  | toNodes p =>
    exact forEachObject_suffix (fun flat k => (frame_toNode ops t.root p flat k).visited) _ _
      { k with team := some p }
  | fromNodes p =>
    exact forEachObject_suffix (fun flat k => (frame_fromNode ops p flat k).visited) _ _
      { k with team := some p }

theorem convert_same (k : Kernel P σ) (call : Convert P)
    (h : ∀ flat ∈ (t.convert ops k call).visited, t.Inside flat) :
    t.Same k (t.convert ops k call) := by
  cases call with
  | toNodes p => exact forEachObject_same (frame_toNode ops t.root p) _ _ { k with team := some p } h
  | fromNodes p => exact forEachObject_same (frame_fromNode ops p) _ _ { k with team := some p } h

theorem converts_suffix (calls : List (Convert P)) : ∀ k : Kernel P σ,
    k.visited <:+ (calls.foldl (t.convert ops) k).visited := by
  induction calls with
  | nil => intro k; exact suffix_refl _
  | cons call calls ih => intro k; exact (convert_suffix k call).trans (ih _)

theorem converts_same (calls : List (Convert P)) : ∀ k : Kernel P σ,
    (∀ flat ∈ (calls.foldl (t.convert ops) k).visited, t.Inside flat) →
      t.Same k (calls.foldl (t.convert ops) k) := by
  induction calls with
  | nil => intro k _ _ _ _; rfl
  | cons call calls ih =>
    intro k h
    have hs := @converts_suffix P σ t ops calls (t.convert ops k call)
    exact (convert_same k call fun flat hf => h flat (hs.subset hf)).trans (ih _ h)

theorem Same.wordsAt_eq {k k' : Kernel P σ} (h : t.Same k k') {off : BitVec 32} {n : ℕ}
    (hle : t.dataSize.toNat ≤ off.toNat) (hlt : off.toNat + 4 * n ≤ 2 ^ 32) :
    wordsAt k'.memory off n = wordsAt k.memory off n := by
  apply map_congr_left
  intro i hi
  have hi := mem_range.1 hi
  have ha : (off + BitVec.ofNat 32 (4 * i)).toNat = off.toNat + 4 * i := by
    rw [toNat_add, toNat_ofNat]
    omega
  exact h _ (by omega) (by omega)

/-- **Offsets that all leave room for an object** keep the conversions inside of the data. -/
theorem converts_inside (hle : t.dataSize.toNat ≤ t.offsets.toNat)
    (hlt : t.offsets.toNat + 4 * t.count ≤ 2 ^ 32) (calls : List (Convert P)) :
    ∀ k : Kernel P σ, (∀ flat ∈ wordsAt k.memory t.offsets t.count, t.Inside flat) →
      (∀ flat ∈ k.visited, t.Inside flat) →
      ∀ flat ∈ (calls.foldl (t.convert ops) k).visited, t.Inside flat := by
  induction calls with
  | nil => intro k _ h; exact h
  | cons call calls ih =>
    intro k hall hvis
    have hin : ∀ flat ∈ (t.convert ops k call).visited, t.Inside flat := by
      cases call with
      | toNodes p =>
        exact forEachObject_inside (frame_toNode ops t.root p) _ _
          { k with team := some p } hle hlt hall hvis
      | fromNodes p =>
        exact forEachObject_inside (frame_fromNode ops p) _ _
          { k with team := some p } hle hlt hall hvis
    refine ih _ ?_ hin
    rwa [(convert_same k call hin).wordsAt_eq hle hlt]

theorem dtor_visited_eq (k : Kernel P σ) :
    (t.offsetsSize = 0 ∧ (t.dtor ops k).visited = k.visited) ∨
      ∃ (owner : Option P) (driver : σ), (t.dtor ops k).visited =
        (forEachObject (dropObject ops owner) t.count t.offsets { k with driver := driver }).2.visited := by
  unfold dtor
  split
  · rename_i h0
    exact .inl ⟨h0, rfl⟩
  · right
    split
    · exact ⟨none, k.driver, rfl⟩
    · split
      · exact ⟨none, _, rfl⟩
      · exact ⟨some _, _, rfl⟩

/-- **The destructor looks at all there is**, and at nothing that does not fit if all fits. -/
theorem dtor_inside_iff (hle : t.dataSize.toNat ≤ t.offsets.toNat)
    (hlt : t.offsets.toNat + 4 * t.count ≤ 2 ^ 32) (k : Kernel P σ) :
    (∀ flat ∈ (t.dtor ops k).visited, t.Inside flat) ↔
      (∀ flat ∈ k.visited, t.Inside flat) ∧
        ∀ flat ∈ wordsAt k.memory t.offsets t.count, t.Inside flat := by
  rcases @dtor_visited_eq P σ t ops k with ⟨h0, hv⟩ | ⟨owner, driver, hv⟩
  · have hcount : t.count = 0 := by
      unfold count
      rw [h0]
      rfl
    rw [hv, hcount]
    exact ⟨fun h => ⟨h, fun flat hf => (by cases hf)⟩, fun h => h.1⟩
  · rw [hv]
    constructor
    · intro h
      refine ⟨fun flat hf => h flat ?_, fun flat hf => h flat ?_⟩
      · exact (forEachObject_suffix (fun flat k => (frame_dropObject ops owner flat k).visited) _ _
          { k with driver := driver }).subset hf
      · exact forEachObject_all (dropObject_spec ops owner) _ _ { k with driver := driver } flat hf
    · rintro ⟨h1, h2⟩
      exact forEachObject_inside (frame_dropObject ops owner) _ _ { k with driver := driver } hle hlt h2 h1

/-! ### The bounds -/

/-- What is claimed of a transaction: once its data is copied, the copies lie in the buffer,
and whatever is then called, every object that is looked at lies in the data. -/
def DataBounded (ops : NodeOps P σ) (driver : σ) (c : CopyCall) (calls : List (Convert P))
    (t : Transaction) : Prop :=
  ∀ buffer m, t.copyTransactionData c = some (buffer, m) →
    t.CopiesInside buffer ∧ ∀ flat ∈ (t.live ops calls m driver).visited, t.Inside flat

/-- **Where the driver reaches lies in the transaction's data** exactly when the aligned sizes
do not wrap around and every offset leaves room for an object. -/
theorem data_bounded_iff (ops : NodeOps P σ) (driver : σ) (c : CopyCall)
    (calls : List (Convert P)) (t : Transaction) :
    t.DataBounded ops driver c calls ↔
      (t.Accepted c → t.wanted < 2 ^ 32 ∧ ∀ i < t.count,
        (userWord c.user (t.offsetsPtr + BitVec.ofNat 32 (4 * i))).toNat + flatSize ≤
          t.dataSize.toNat) := by
  have hvisit : t.wanted < 2 ^ 32 →
      ((∀ flat ∈ (t.live ops calls (t.copied c) driver).visited, t.Inside flat) ↔ ∀ i < t.count,
        (userWord c.user (t.offsetsPtr + BitVec.ofNat 32 (4 * i))).toNat + flatSize ≤
          t.dataSize.toNat) := by
    intro hw
    have halign := intAlign_toNat t.dataSize
    have hwanted := hw
    unfold wanted roundUp at hwanted
    unfold roundUp at halign
    have hle : t.dataSize.toNat ≤ t.offsets.toNat := by
      unfold offsets
      omega
    have hlt : t.offsets.toNat + 4 * t.count ≤ 2 ^ 32 := by
      unfold offsets count
      omega
    have hwords : (∀ flat ∈ wordsAt (t.copied c) t.offsets t.count, t.Inside flat) ↔
        ∀ i < t.count, (userWord c.user (t.offsetsPtr + BitVec.ofNat 32 (4 * i))).toNat + flatSize ≤
          t.dataSize.toNat := by
      unfold wordsAt
      simp only [forall_mem_map, mem_range, inside_iff]
      exact forall_congr' fun i => forall_congr' fun hi => by rw [t.word_copied c hw hi]
    rw [← hwords]
    unfold live
    rw [dtor_inside_iff hle hlt]
    constructor
    · rintro ⟨h1, h2⟩
      rwa [(converts_same calls _ h1).wordsAt_eq hle hlt] at h2
    · intro h
      have hin := @converts_inside P σ t ops hle hlt calls ⟨t.copied c, driver, none, []⟩ h
        (fun flat hf => (by cases hf))
      refine ⟨hin, ?_⟩
      rwa [(converts_same calls _ hin).wordsAt_eq hle hlt]
  unfold DataBounded
  constructor
  · intro h hacc
    obtain ⟨h1, h2⟩ := h _ _ (t.copyTransactionData_eq_some.2 ⟨hacc, rfl, rfl⟩)
    have hw := (t.copiesInside_iff hacc.order).1 h1
    exact ⟨hw, (hvisit hw).1 h2⟩
  · intro h buffer m hcopy
    obtain ⟨hacc, rfl, rfl⟩ := t.copyTransactionData_eq_some.1 hcopy
    obtain ⟨hw, hfit⟩ := h hacc
    exact ⟨(t.copiesInside_iff hacc.order).2 hw, (hvisit hw).2 hfit⟩

end Transaction

/-- Nodes of which nothing is known. -/
def noNodes : NodeOps Unit Unit where
  descriptor2Node _ _ _ s := (0, s)
  ptr2Node _ _ _ _ _ s := (some 0, s)
  setRootObject _ _ s := s
  isHome _ _ _ := false
  nodePtr _ _ := 0
  nodeCookie _ _ := 0
  node2Descriptor _ _ _ s := (0, s)
  release _ _ s := s
  unrefDescriptor _ _ _ s := s
  attemptAcquire _ s := (true, s)
  releaseProc _ s := s

/-- The module's limit as it comes, free pages, and a user who has one byte at all his
addresses. -/
def copyCall (byte : Byte) : CopyCall :=
  ⟨0x1000000, fun _ => true, fun _ => some byte, fun _ => 0⟩

/-- One object at `0x08080808` in 16 bytes of data; and sizes that add up to zero. -/
theorem data_not_bounded :
    ¬ (Transaction.create 16 0x1000 4 0x2000 false).DataBounded noNodes () (copyCall 8)
        [.toNodes ()] ∧
      ¬ (Transaction.create 0x80000000 0x1000 0x80000000 0x1000 false).DataBounded noNodes ()
        (copyCall 8) [] := by
  have hreadable : ∀ (src : BitVec 32) (n : ℕ), src.toNat + n ≤ 2 ^ 32 →
      Readable (copyCall 8).user src n := fun src n h => ⟨h, fun _ _ => rfl⟩
  constructor
  · intro h
    have horder : calcOrderFromSize (Transaction.create 16 0x1000 4 0x2000 false).size.toNat = 0 :=
      Nat.clog_one_right 2
    obtain ⟨-, h2⟩ := h _ _ ((Transaction.create 16 0x1000 4 0x2000 false).copyTransactionData_eq_some.2
      ⟨⟨by decide, by rw [horder]; decide, rfl, hreadable _ _ (by decide),
        fun _ => hreadable _ _ (by decide)⟩, rfl, rfl⟩)
    have hin := (Transaction.inside_iff _ _).1 (h2 0x08080808 (by decide))
    exact absurd hin (by decide)
  · intro h
    have horder : calcOrderFromSize
        (Transaction.create 0x80000000 0x1000 0x80000000 0x1000 false).size.toNat = 0 :=
      Nat.clog_zero_right 2
    obtain ⟨h1, -⟩ := h _ _
      ((Transaction.create 0x80000000 0x1000 0x80000000 0x1000 false).copyTransactionData_eq_some.2
        ⟨⟨by decide, by rw [horder]; decide, rfl, hreadable _ _ (by decide),
          fun _ => hreadable _ _ (by decide)⟩, rfl, rfl⟩)
    have hw := (Transaction.copiesInside_iff _ (by rw [horder]; decide)).1 h1
    exact absurd hw (by decide)

end OpenBinder
