import Mathlib.Order.Basic
import OpenBinder.Lib.Run
import OpenBinder.Store.Contents

/-!
# Memory stores refine byte arrays

* `assertSpace_spec`: a request for memory that is understood fails only if there is none.
* `extend_spec`, `copyIn_spec`: the two steps of writing an element.
* `refines_contents`: in a run of calls that observe what they have to, every call is the
  one on the array.
-/

namespace OpenBinder.BMemoryStore

open Lib List Nat Bool

/-- **What holds of a store**: its bytes are inside of the allocation, whose size on the heap
is the one it is thought to have. -/
structure Sound (st : BMemoryStore) : Prop where
  length_le : st.length ≤ st.capacity
  capacity_lt : st.capacity < 2 ^ 32
  heap : ∀ b m, st.core = .malloc b m → 0 < b ∧ (st.data.isSome → st.capacity = m)

variable {n pos : ℕ} {st : BMemoryStore} {alloc : ℕ → Bool} {a : Contents} {s : State}

theorem le_roundUp {b : ℕ} (hb : 0 < b) : n ≤ roundUp b n := by
  unfold roundUp
  have h1 := div_add_mod (n + (b - 1)) b
  have h2 := mod_lt (n + (b - 1)) hb
  rw [mul_comm] at h1
  omega

theorem roundUp_le (b n : ℕ) : roundUp b n ≤ n + (b - 1) := div_mul_le_self ..

theorem newsize_eq {b : ℕ} (h : n + (b - 1) < 2 ^ 32) : newsize b n = roundUp b n := by
  rw [newsize, mod_eq_of_lt h, roundUp]

theorem roundUp_same {b k : ℕ} (hb : 0 < b) (hnk : n ≤ k) (hk : k ≤ roundUp b n) :
    roundUp b k = roundUp b n := by
  unfold roundUp at hk ⊢
  congr 1
  apply le_antisymm
  · rw [div_le_iff_le_mul_add_pred hb, mul_comm]
    omega
  · exact Nat.div_le_div_right (by omega)

theorem capacity_eq_zero (h : st.data.isSome = false) : st.capacity = 0 := by
  have : st.data = none := by simpa using h
  simp [capacity, block, this]

/-- What is stored is left as it is. -/
structure Keeps (st st' : BMemoryStore) : Prop where
  readOnly : st'.readOnly = st.readOnly
  byte : ∀ i : ℕ, (st'.block[i]?).join = (st.block[i]?).join

theorem Keeps.refl (st : BMemoryStore) : Keeps st st := ⟨rfl, fun _ => rfl⟩

theorem join_resize {old : Option Block} (h : (old.getD []).length ≤ n) (i : ℕ) :
    ((resize old n)[i]?).join = ((old.getD [])[i]?).join := by
  rw [resize, take_of_length_le h]
  by_cases hi : i < (old.getD []).length
  · rw [List.getElem?_append_left hi]
  · rw [List.getElem?_append_right (by omega), List.getElem?_replicate,
      List.getElem?_eq_none (show (old.getD []).length ≤ i by omega)]
    split <;> rfl

theorem length_resize {old : Option Block} (h : (old.getD []).length ≤ n) :
    (resize old n).length = n := by
  rw [resize, take_of_length_le h, length_append, length_replicate]
  omega

/-- **A request for memory** that is understood succeeds if the store is that long or if there
is room. -/
theorem assertSpace_spec (alloc : ℕ → Bool) (h : st.Sound) (hfits : st.Fits n)
    (hn : 0 < n ∨ st.data.isSome = true) :
    let r := st.assertSpace n alloc
    r.1 = (decide (n ≤ st.length) || st.room alloc n) ∧ Sound r.2 ∧ Keeps st r.2 ∧
      r.2.length = st.length ∧ (r.1 = true → n ≤ r.2.capacity ∧
        ∀ k, n ≤ k → r.2.room alloc k = st.room alloc k) := by
  have hlen := h.length_le
  unfold assertSpace room Fits at *
  cases hcore : st.core with
  | caller =>
    rw [hcore] at hfits
    have hsome : n ≤ st.length → st.data.isSome = true := by
      intro hle
      rcases hn with hn | hn
      · by_contra hnone
        have := capacity_eq_zero (eq_false_iff.2 hnone)
        omega
      · exact hn
    refine ⟨?_, h, .refl st, rfl, ?_⟩
    · by_cases hle : n ≤ st.length
      · simp [hle, hsome hle]
      · simp [hle]
    · intro hr
      have hle : n ≤ st.length := by simpa using (and_eq_true_iff.1 hr).1
      exact ⟨hle.trans hlen, fun k _ => by rw [hcore]⟩
  | malloc b m =>
    obtain ⟨hb, hm⟩ := h.heap b m hcore
    rw [hcore] at hfits
    by_cases hnm : n ≤ m
    · have hsome : st.data.isSome = true := by
        rcases hn with hn | hn
        · exact hfits.1 hn hnm
        · exact hn
      have hcm := hm hsome
      simp only [if_pos hnm, hsome]
      refine ⟨?_, h, .refl st, trivial, fun _ => ⟨by omega, fun k _ => by rw [hcore]⟩⟩
      have : n ≤ st.capacity := by omega
      simp [this]
    · have hwrap := hfits.2 (by omega)
      have hround := le_roundUp (n := n) hb
      have hround' := roundUp_le b n
      have hcn : st.capacity ≤ m := by
        cases hd : st.data.isSome with
        | true => exact (hm hd).le
        | false => rw [capacity_eq_zero hd]; exact zero_le m
      have hne : roundUp b n ≠ 0 := by omega
      have hnl : ¬ n ≤ st.length := by omega
      have hnc : ¬ n ≤ st.capacity := by omega
      simp only [if_neg hnm, newsize_eq hwrap, if_neg hne, hnl, hnc, decide_false, Bool.false_or]
      cases halloc : alloc (roundUp b n) with
      | false => exact ⟨rfl, h, .refl st, rfl, fun hf => absurd hf false_ne_true⟩
      | true =>
        have hold : (st.data.getD []).length ≤ roundUp b n := by
          have : st.capacity ≤ roundUp b n := by omega
          exact this
        have hres := length_resize hold
        have hcap' : (⟨st.length, some (resize st.data (roundUp b n)), st.readOnly,
            .malloc b (roundUp b n)⟩ : BMemoryStore).capacity = roundUp b n := hres
        refine ⟨rfl, ⟨?_, ?_, ?_⟩, ⟨rfl, join_resize hold⟩, rfl, fun _ => ⟨?_, ?_⟩⟩
        · rw [if_pos rfl, hcap']; dsimp only; omega
        · rw [if_pos rfl, hcap']; omega
        · intro b' m' hc
          injection hc with h1 h2
          rw [if_pos rfl, ← h1, ← h2, hcap']
          exact ⟨hb, fun _ => rfl⟩
        · rw [if_pos rfl, hcap']; exact hround
        · intro k hk
          rw [if_pos rfl, hcap']
          dsimp only
          by_cases hkr : k ≤ roundUp b n
          · rw [roundUp_same hb hk hkr, halloc, Bool.or_true, Bool.or_true]
          · have hkc : ¬ k ≤ st.capacity := by omega
            simp [hkr, hkc]

theorem Sound.of_length (h : st.Sound) (hn : n ≤ st.capacity) :
    Sound { st with length := n } := ⟨hn, h.capacity_lt, h.heap⟩

/-- The growth test for bytes that end within the store, or for which memory is asked. -/
def EndFits (st : BMemoryStore) (last : ℕ) : Prop :=
  last ≤ st.length ∨ last ≤ limit ∧ st.Fits last

/-- **The growth test** goes on if the bytes end within the store or if there is room. -/
theorem extend_spec {last : ℕ} (alloc : ℕ → Bool) (h : st.Sound) (hfits : st.EndFits last) :
    let r := st.extend last alloc
    (r.1 = true ↔ last ≤ st.length ∨ last ≤ limit ∧ st.room alloc last = true) ∧
      Sound r.2 ∧ Keeps st r.2 ∧
        (r.1 = false → r.2.length = st.length) ∧
          (r.1 = true → r.2.length = max st.length last ∧ last ≤ r.2.capacity ∧
            ∀ k, r.2.length < k → r.2.room alloc k = st.room alloc k) := by
  have hlen := h.length_le
  unfold extend
  by_cases hle : last ≤ st.length
  · have hnlt : ¬ (st.length : ℤ) < (last : ℤ) := by omega
    simp only [if_neg hnlt]
    refine ⟨iff_of_true trivial (.inl hle), h, .refl st, fun _ => trivial,
      fun _ => ⟨(max_eq_left hle).symm, hle.trans hlen, fun _ _ => trivial⟩⟩
  · have hlt : (st.length : ℤ) < (last : ℤ) := by omega
    obtain ⟨hlim, hfit⟩ := hfits.resolve_left hle
    have hlim' : (last : ℤ) ≤ (limit : ℤ) := by omega
    obtain ⟨h1, h2, h3, h4, h5⟩ := assertSpace_spec alloc h hfit (.inl (by omega))
    simp only [if_pos hlt, if_pos hlim', Int.toNat_natCast]
    rw [decide_eq_false hle, Bool.false_or] at h1
    cases hr : (st.assertSpace last alloc).1 with
    | false =>
      refine ⟨iff_of_false false_ne_true ?_, h2, h3, fun _ => h4,
        fun hf => absurd hf false_ne_true⟩
      rintro (hc | ⟨-, hc⟩)
      · exact hle hc
      · rw [← h1, hr] at hc
        exact false_ne_true hc
    | true =>
      obtain ⟨h6, h7⟩ := h5 hr
      refine ⟨iff_of_true rfl (.inr ⟨hlim, h1 ▸ hr⟩), h2.of_length h6, ⟨h3.readOnly, h3.byte⟩,
        fun hf => absurd hf.symm false_ne_true, fun _ => ⟨?_, h6, ?_⟩⟩
      · show last = max st.length last
        omega
      · intro k hk
        exact h7 k (le_of_lt hk)

/-- **Bytes copied into the allocation** are there, and nothing else is changed. -/
theorem copyIn_spec {bytes : Block} (h : st.Sound) (hin : pos + bytes.length ≤ st.capacity) :
    ∃ st', st.copyIn pos bytes = some st' ∧ Sound st' ∧ st'.length = st.length ∧
      st'.readOnly = st.readOnly ∧ (∀ alloc k, st'.room alloc k = st.room alloc k) ∧
        ∀ i : ℕ, (st'.block[i]?).join =
          if pos ≤ i ∧ i < pos + bytes.length then (bytes[i - pos]?).join
          else (st.block[i]?).join := by
  unfold copyIn
  by_cases hnil : bytes = []
  · subst hnil
    refine ⟨st, if_pos rfl, h, rfl, rfl, fun _ _ => rfl, fun i => ?_⟩
    rw [if_neg (by simp only [length_nil]; omega)]
  · have hpos := length_pos_of_ne_nil hnil
    cases hdata : st.data with
    | none =>
      have : st.capacity = 0 := capacity_eq_zero (by rw [hdata]; rfl)
      omega
    | some blk =>
      have hblk : st.block = blk := by rw [block, hdata]; rfl
      have hin' : pos + bytes.length ≤ blk.length := by
        rw [← hblk]; exact hin
      have hcond : (0 : ℤ) ≤ (pos : ℤ) ∧ pos + bytes.length ≤ blk.length :=
        ⟨Int.natCast_nonneg _, hin'⟩
      simp only [if_neg hnil, Int.toNat_natCast, if_pos hcond]
      have hcap : (⟨st.length, some (overwrite blk pos bytes), st.readOnly, st.core⟩ :
          BMemoryStore).capacity = st.capacity := by
        rw [capacity, capacity, hblk]
        exact length_overwrite hin'
      refine ⟨_, rfl, ⟨?_, ?_, ?_⟩, rfl, rfl, ?_, ?_⟩
      · rw [hcap]; exact h.length_le
      · rw [hcap]; exact h.capacity_lt
      · intro b m hc
        rw [hcap]
        exact ⟨(h.heap b m hc).1, fun _ => (h.heap b m hc).2 (by rw [hdata]; rfl)⟩
      · intro alloc k
        rw [room, room, hcap]
      · intro i
        show ((overwrite blk pos bytes)[i]?).join = _
        rw [getElem?_overwrite hin', hblk]
        split <;> rfl

theorem offset_eq (h : n < 2 ^ 63) : offset (n : ℤ) = n := by
  unfold offset
  rw [Int.bmod_eq_of_le] <;> omega

theorem ssize_total (h : n ≤ limit) : ssize (n : ℤ) = n :=
  ssize_of_lt (by omega) (by unfold limit at h; omega)

theorem EndFits.lt {last : ℕ} (h : st.EndFits last) (hs : st.Sound) :
    last < 2 ^ 63 := by
  have h1 := hs.length_le
  have h2 := hs.capacity_lt
  rcases h with h | ⟨h, -⟩
  · omega
  · unfold limit at h
    omega

theorem Agrees.put {st st₁ st₂ : BMemoryStore} {a : Contents} {pos : ℕ} {bytes : Block}
    (h : Agrees st a) (hkeeps : Keeps st st₁)
    (hlen₁ : st₁.length = max st.length (pos + bytes.length)) (hlen₂ : st₂.length = st₁.length)
    (hbyte : ∀ i : ℕ, (st₂.block[i]?).join =
      if pos ≤ i ∧ i < pos + bytes.length then (bytes[i - pos]?).join else (st₁.block[i]?).join) :
    Agrees st₂ (a.put pos bytes) where
  size := by
    show max a.size _ = _
    rw [hlen₂, hlen₁, h.size]
  byte := by
    intro i
    show (if _ then _ else _) = _
    rw [hbyte, h.byte, hkeeps.byte]

/-- **The loop of `WriteAtV`** writes what the array does. -/
theorem writeLoop_spec {room : ℕ → Bool} (vector : List (List Byte)) :
    ∀ {pos total : ℕ} {st : BMemoryStore} {a : Contents}, Sound st → Agrees st a →
      WriteFits alloc vector pos total st → total ≤ limit →
        (∀ k, st.length < k → st.room alloc k = room k) →
          (writeLoop alloc vector pos total st).1 =
              .count (Contents.writeLoop room vector pos total a).1 ∧
            Sound (writeLoop alloc vector pos total st).2 ∧
              Agrees (writeLoop alloc vector pos total st).2
                (Contents.writeLoop room vector pos total a).2 := by
  induction vector with
  | nil =>
    intro pos total st a hs ha _ htotal _
    exact ⟨congrArg Result.count (ssize_total htotal), hs, ha⟩
  | cons bytes vector ih =>
    intro pos total st a hs ha hfits htotal hroom
    obtain ⟨hend, hrest⟩ := hfits
    have hlast : offset ((pos : ℤ) + bytes.length) = ((pos + bytes.length : ℕ) : ℤ) := by
      rw [← cast_add]
      exact offset_eq (EndFits.lt hend hs)
    obtain ⟨hgo, hs₁, hkeeps, hstop, hext⟩ := extend_spec alloc hs hend
    -- the array has room for the element exactly if the growth test goes on
    have hcond : (pos + bytes.length ≤ a.size ∨
        pos + bytes.length ≤ limit ∧ room (pos + bytes.length) = true) ↔
          (st.extend (pos + bytes.length : ℕ) alloc).1 = true := by
      rw [hgo, ha.size]
      by_cases hle : pos + bytes.length ≤ st.length
      · exact iff_of_true (.inl hle) (.inl hle)
      · rw [hroom _ (by omega)]
    rw [writeLoop, Contents.writeLoop, hlast]
    cases hr : (st.extend (pos + bytes.length : ℕ) alloc).1 with
    | false =>
      have hno := (not_congr hcond).2 (eq_false_iff.1 hr)
      simp only [if_neg hno]
      exact ⟨congrArg Result.count (ssize_total htotal), hs₁,
        ⟨ha.size.trans (hstop hr).symm, fun i => (ha.byte i).trans (hkeeps.byte i).symm⟩⟩
    | true =>
      obtain ⟨htotal', hnext⟩ := hrest hr
      obtain ⟨hlen₁, hin, hroom₁⟩ := hext hr
      obtain ⟨st₂, hcopy, hs₂, hlen₂, -, hroom₂, hbyte⟩ :=
        copyIn_spec hs₁ (by rw [length_map]; exact hin : _ + (bytes.map some).length ≤ _)
      simp only [if_pos (hcond.2 hr), hcopy, if_true]
      have ha₂ : Agrees st₂ (a.put pos (bytes.map some)) :=
        ha.put hkeeps (by rw [hlen₁, length_map]) hlen₂ hbyte
      refine ih hs₂ ha₂ (hnext st₂ hcopy) htotal' fun k hk => ?_
      rw [hroom₂, hroom₁ k (hlen₂ ▸ hk)]
      rw [hlen₂, hlen₁] at hk
      exact hroom k (by omega)

theorem Agrees.slice (h : Agrees st a) (hs : st.Sound) (pos : ℕ) :
    a.slice pos = (st.block.drop pos).take (st.length - pos) := by
  have hlen : st.length ≤ st.block.length := hs.length_le
  apply ext_getElem?
  intro i
  rw [Contents.slice, List.getElem?_map, h.size, List.getElem?_take, List.getElem?_drop]
  by_cases hi : i < st.length - pos
  · rw [List.getElem?_range hi, Option.map_some, h.byte, if_pos hi,
      List.getElem?_eq_getElem (by omega)]
    rfl
  · rw [List.getElem?_eq_none (by rw [length_range]; omega), if_neg hi]
    rfl

theorem copyOut_spec (h : Agrees st a) (hs : st.Sound) {size : ℕ} (hin : pos + size ≤ st.length) :
    st.copyOut pos size = some ((a.slice pos).take size) := by
  have hlen := hs.length_le
  unfold copyOut
  by_cases hzero : size = 0
  · rw [if_pos hzero, hzero, take_zero]
  · cases hdata : st.data with
    | none =>
      have : st.capacity = 0 := capacity_eq_zero (by rw [hdata]; rfl)
      omega
    | some blk =>
      have hblk : st.block = blk := by rw [block, hdata]; rfl
      have hcond : (0 : ℤ) ≤ (pos : ℤ) ∧ pos + size ≤ blk.length := by
        refine ⟨Int.natCast_nonneg _, ?_⟩
        rw [capacity, hblk] at hlen
        omega
      simp only [if_neg hzero, Int.toNat_natCast, if_pos hcond]
      rw [h.slice hs, hblk, take_take, min_eq_left (by omega)]

theorem length_slice (a : Contents) (pos : ℕ) : (a.slice pos).length = a.size - pos := by
  rw [Contents.slice, length_map, length_range]

theorem drop_slice (a : Contents) (pos n : ℕ) : (a.slice pos).drop n = a.slice (pos + n) := by
  apply ext_getElem?
  intro i
  simp only [Contents.slice, List.getElem?_drop, List.getElem?_map]
  by_cases hi : n + i < a.size - pos
  · have hi' : i < a.size - (pos + n) := by omega
    rw [List.getElem?_range hi, List.getElem?_range hi', Option.map_some, Option.map_some,
      add_assoc]
  · rw [List.getElem?_eq_none (by rw [length_range]; omega),
      List.getElem?_eq_none (by rw [length_range]; omega)]
    rfl

/-- **The loop of `ReadAtV`** gives the elements what the array has from the position on. -/
theorem readLoop_spec (h : Agrees st a) (hs : st.Sound) (vector : List ℕ) :
    ∀ {pos total : ℕ} {parts : List Block}, (∀ len ∈ vector, len < 2 ^ 32) →
      st.readLoop vector pos total parts =
        .read (ssize (total + ((fill vector (a.slice pos)).map List.length).sum : ℕ))
          (parts ++ fill vector (a.slice pos)) := by
  have hlen := hs.length_le
  have hcap := hs.capacity_lt
  induction vector with
  | nil =>
    intro pos total parts _
    simp [readLoop, fill]
  | cons len vector ih =>
    intro pos total parts hvalid
    have hl := hvalid len (mem_cons_self ..)
    rw [readLoop]
    by_cases hpos : st.length ≤ pos
    · have hnil : a.slice pos = [] := by
        apply eq_nil_of_length_eq_zero
        rw [length_slice, h.size]
        omega
      have hpos' : (st.length : ℤ) ≤ (pos : ℤ) := by omega
      rw [if_pos hpos', hnil, fill_nil]
      simp
    · have hpos' : ¬ (st.length : ℤ) ≤ (pos : ℤ) := by omega
      have hne : a.slice pos ≠ [] := by
        intro hnil
        have := length_slice a pos
        rw [hnil, h.size] at this
        simp only [length_nil] at this
        omega
      have hlast : offset ((pos : ℤ) + len) = ((pos + len : ℕ) : ℤ) := by
        rw [← cast_add]
        exact offset_eq (by omega)
      -- the element gets what is asked for, or all there is
      have hsize : (if (st.length : ℤ) < offset ((pos : ℤ) + len) then
          ((st.length : ℤ) - pos).toNat else len) = min len (st.length - pos) := by
        rw [hlast]
        split <;> omega
      have htake : (a.slice pos).take (min len (st.length - pos)) = (a.slice pos).take len := by
        rw [← h.size, ← length_slice, take_eq_take_iff]
        omega
      have hdrop : a.slice (pos + min len (st.length - pos)) = (a.slice pos).drop len := by
        rw [← drop_slice, ← h.size, ← length_slice]
        by_cases hle : len ≤ (a.slice pos).length
        · rw [min_eq_left hle]
        · rw [min_eq_right (by omega), drop_length, drop_eq_nil_of_le (by omega)]
      have hnext : offset ((pos : ℤ) + (min len (st.length - pos) : ℕ)) =
          ((pos + min len (st.length - pos) : ℕ) : ℤ) := by
        rw [← cast_add]
        exact offset_eq (by omega)
      simp only [if_neg hpos', hsize, copyOut_spec h hs (show pos + min len (st.length - pos) ≤ _ by
        omega), htake, hnext]
      rw [ih fun l hl => hvalid l (mem_cons_of_mem _ hl), hdrop, fill_cons _ _ hne]
      have hcount : ((a.slice pos).take len).length = min len (st.length - pos) := by
        rw [length_take, length_slice, h.size]
      simp only [map_cons, sum_cons, hcount, append_assoc, cons_append,
        nil_append, add_assoc]

theorem assertSpace_zero (h : st.data.isSome = false) (alloc : ℕ → Bool) :
    st.assertSpace 0 alloc = (false, st) := by
  unfold assertSpace
  cases st.core <;> simp [h]

/-- What a call has to show: it refines the one on the array, and the store stays sound. -/
structure Right (s : State) (a : Action) : Prop where
  refines : Refines s a
  sound : Sound (s.store.perform a).2

theorem Right.of_eq {a : Action} {r q : Result} {c : Contents} (hp : s.store.perform a = (r, st))
    (hq : s.contents.apply (s.store.room a.alloc) s.store.readOnly a = (q, c))
    (hfault : r ≠ .fault) (hresult : (∀ size alloc, a ≠ .setSize size alloc) → r = q)
    (hdone : r = .status true → q = .status true) (hagrees : Agrees st c) (hsound : st.Sound) :
    Right s a := by
  refine ⟨⟨?_, ?_, ?_, ?_⟩, ?_⟩ <;> simp only [hp, hq]
  · exact hfault
  · exact hresult
  · exact hdone
  · exact hagrees
  · exact hsound

theorem Right.of_same {a : Action} {r : Result} {c : Contents} (hp : s.store.perform a = (r, st))
    (hq : s.contents.apply (s.store.room a.alloc) s.store.readOnly a = (r, c))
    (hfault : r ≠ .fault) (hagrees : Agrees st c) (hsound : st.Sound) : Right s a :=
  .of_eq hp hq hfault (fun _ => rfl) id hagrees hsound

section

variable (hs : s.store.Sound) (ha : Agrees s.store s.contents)
include hs ha

theorem right_read {vector : List ℕ} (hv : (Action.read pos vector).Valid)
    (ho : Observes s (.read pos vector)) :
    Right s (.read pos vector) := by
  refine .of_same (r := .read _ _) (Prod.ext ?_ rfl) rfl Result.noConfusion ha hs
  show s.store.readLoop vector pos (0 : ℕ) [] = _
  rw [readLoop_spec ha hs vector hv.2, zero_add, nil_append, ssize_total]
  rw [sum_fill, length_slice, ha.size]
  exact ho

theorem right_write {vector : List (List Byte)} (ho : Observes s (.write pos vector alloc)) :
    Right s (.write pos vector alloc) := by
  cases hro : s.store.readOnly with
  | true =>
    refine .of_same (r := .permissionDenied) ?_ ?_ Result.noConfusion ha hs
    · simp [perform, write, hro]
    · simp [Contents.apply, hro]
  | false =>
    obtain ⟨h1, h2, h3⟩ :=
      writeLoop_spec vector hs ha (ho hro) (zero_le _) fun _ _ => rfl
    have hp : s.store.perform (.write pos vector alloc) =
        writeLoop alloc vector pos (0 : ℕ) s.store :=
      if_neg (eq_false_iff.1 hro)
    have hq : s.contents.apply (s.store.room alloc) s.store.readOnly (.write pos vector alloc) =
        (.count (Contents.writeLoop (s.store.room alloc) vector pos 0 s.contents).1,
          (Contents.writeLoop (s.store.room alloc) vector pos 0 s.contents).2) :=
      if_neg (eq_false_iff.1 hro)
    exact .of_same (hp.trans (Prod.ext h1 rfl)) hq Result.noConfusion h3 h2

theorem right_setSize {size : ℕ} (ho : Observes s (.setSize size alloc)) :
    Right s (.setSize size alloc) := by
  have hle := hs.length_le
  cases hro : s.store.readOnly with
  | true =>
    refine .of_same (r := .permissionDenied) ?_ ?_ Result.noConfusion ha hs
    · simp [perform, setSize, hro]
    · simp [Contents.apply, hro]
  | false =>
    by_cases hlim : size ≤ limit
    · by_cases hzero : 0 < size ∨ s.store.data.isSome = true
      · obtain ⟨h1, h2, h3, h4, h5⟩ := assertSpace_spec alloc hs (ho hro hlim) hzero
        have hcond : (size ≤ s.contents.size ∨ s.store.room alloc size = true) ↔
            (s.store.assertSpace size alloc).1 = true := by
          rw [h1, ha.size, or_eq_true, decide_eq_true_eq]
        cases hr : (s.store.assertSpace size alloc).1 with
        | true =>
          have hagrees : Agrees { (s.store.assertSpace size alloc).2 with length := size }
              { s.contents with size := size } :=
            ⟨rfl, fun i => (ha.byte i).trans (h3.byte i).symm⟩
          refine .of_same (r := .status true) ?_ ?_ Result.noConfusion hagrees ?_
          · simp [perform, setSize, hro, hlim, hr]
          · simp [Contents.apply, hro, hlim, Action.alloc, hcond.2 hr]
          · exact h2.of_length (h5 hr).1
        | false =>
          have hno := (not_congr hcond).2 (eq_false_iff.1 hr)
          have hagrees : Agrees (s.store.assertSpace size alloc).2 s.contents :=
            ⟨ha.size.trans h4.symm, fun i => (ha.byte i).trans (h3.byte i).symm⟩
          refine .of_same (r := .status false) ?_ ?_ Result.noConfusion hagrees h2
          · simp [perform, setSize, hro, hlim, hr]
          · simp [Contents.apply, hro, Action.alloc, hno]
      · -- nothing is asked for and there is nothing: the size stays zero
        obtain ⟨h0, hnone⟩ := not_or.1 hzero
        obtain rfl : size = 0 := by omega
        have hnone := eq_false_iff.2 hnone
        have hlen : s.store.length = 0 := by
          have := capacity_eq_zero hnone
          omega
        have hagrees : Agrees s.store { s.contents with size := 0 } := ⟨hlen.symm, ha.byte⟩
        refine .of_eq (r := .status false) (q := .status true) ?_ ?_ Result.noConfusion
          (fun h => (h 0 alloc rfl).elim) (fun h => absurd h (by decide)) hagrees hs
        · simp [perform, setSize, hro, assertSpace_zero hnone]
        · simp [Contents.apply, hro]
    · refine .of_same (r := .status false) ?_ ?_ Result.noConfusion ha hs
      · simp [perform, setSize, hro, hlim]
      · simp [Contents.apply, hro, hlim]

theorem right_copy {bytes : Block} (ho : Observes s (.copy bytes alloc)) :
    Right s (.copy bytes alloc) := by
  by_cases hnil : bytes = []
  · subst hnil
    have hlen : s.store.length = 0 := ho
    have hagrees : Agrees s.store { s.contents.put 0 [] with size := 0 } := by
      refine ⟨hlen.symm, fun i => ?_⟩
      show (if 0 ≤ i ∧ i < 0 + 0 then (([] : Block)[i - 0]?).join else s.contents.byte i) = _
      rw [if_neg (by omega), ha.byte]
    refine .of_same (r := .status true) ?_ ?_ Result.noConfusion hagrees hs
    · simp [perform, copy]
    · simp [Contents.apply]
  · have hfits : s.store.Fits bytes.length := by simpa [Observes, hnil] using ho
    have hpos := length_pos_of_ne_nil hnil
    obtain ⟨h1, h2, h3, h4, h5⟩ := assertSpace_spec alloc hs hfits (.inl hpos)
    have hcond : (bytes.length ≤ s.contents.size ∨ s.store.room alloc bytes.length = true) ↔
        (s.store.assertSpace bytes.length alloc).1 = true := by
      rw [h1, ha.size, or_eq_true, decide_eq_true_eq]
    cases hr : (s.store.assertSpace bytes.length alloc).1 with
    | true =>
      have h6 := (h5 hr).1
      have h7 : 0 + bytes.length ≤ (s.store.assertSpace bytes.length alloc).2.capacity := by
        rw [zero_add]; exact h6
      obtain ⟨st, hcopy, hs', hlen', -, -, hbyte⟩ := copyIn_spec (h2.of_length h6) h7
      have hagrees : Agrees st { s.contents.put 0 bytes with size := bytes.length } := by
        refine ⟨hlen'.symm, fun i => ?_⟩
        rw [hbyte]
        show (if _ then _ else s.contents.byte i) = (if _ then _ else (Option.join _))
        rw [ha.byte, ← h3.byte]
        rfl
      refine .of_same (r := .status true) ?_ ?_ Result.noConfusion hagrees hs'
      · rw [cast_zero] at hcopy
        simp [perform, copy, hnil, hr, hcopy]
      · simp [Contents.apply, Action.alloc, hcond.2 hr]
    | false =>
      have hno := (not_congr hcond).2 (eq_false_iff.1 hr)
      have hagrees : Agrees (s.store.assertSpace bytes.length alloc).2 s.contents :=
        ⟨ha.size.trans h4.symm, fun i => (ha.byte i).trans (h3.byte i).symm⟩
      refine .of_same (r := .status false) ?_ ?_ Result.noConfusion hagrees h2
      · simp [perform, copy, hnil, hr]
      · simp [Contents.apply, Action.alloc, hno]

end

theorem right_reset (hs : s.store.Sound) : Right s .reset := by
  have hagrees : Agrees s.store.reset Contents.empty := ⟨rfl, fun i => rfl⟩
  refine .of_same rfl rfl Result.noConfusion hagrees ⟨Nat.le_refl _, Nat.two_pow_pos 32, ?_⟩
  intro b m hc
  exact ⟨(hs.heap b m hc).1, fun hsome => absurd hsome false_ne_true⟩

theorem right_setBlockSize {newsize : ℕ} (hs : s.store.Sound) (ha : Agrees s.store s.contents)
    (hv : 0 < newsize) : Right s (.setBlockSize newsize) := by
  cases hcore : s.store.core with
  | caller =>
    have hp : s.store.setBlockSize newsize = s.store := by rw [setBlockSize, hcore]
    exact .of_same (congrArg (Prod.mk (Result.status true)) hp) rfl Result.noConfusion ha hs
  | malloc b m =>
    have hp : s.store.setBlockSize newsize = { s.store with core := .malloc newsize m } := by
      rw [setBlockSize, hcore]
    have hagrees : Agrees { s.store with core := .malloc newsize m } s.contents :=
      ⟨ha.size, ha.byte⟩
    refine .of_same (congrArg (Prod.mk (Result.status true)) hp) rfl Result.noConfusion hagrees
      ⟨hs.length_le, hs.capacity_lt, ?_⟩
    intro b' m' hc
    injection hc with h1 h2
    subst h1 h2
    exact ⟨hv, (hs.heap b m hcore).2⟩

theorem right {a : Action} (hs : s.store.Sound) (ha : Agrees s.store s.contents) (hv : a.Valid)
    (ho : Observes s a) : Right s a := by
  cases a with
  | read pos vector => exact right_read hs ha hv ho
  | write pos vector alloc => exact right_write hs ha ho
  | setSize size alloc => exact right_setSize hs ha ho
  | copy bytes alloc => exact right_copy hs ha ho
  | reset => exact right_reset hs
  | setBlockSize newsize => exact right_setBlockSize hs ha hv.1

/-! ### Runs -/

/-- A new store, and the array it starts with. -/
inductive Starts : State → Prop where
  | malloc : Starts ⟨newMalloc, .empty⟩
  | caller (buffer : List Byte) (readOnly : Bool) (h : buffer.length < 2 ^ 32) :
    Starts ⟨onBuffer buffer readOnly, ⟨buffer.length, fun i => buffer[i]?⟩⟩

theorem Starts.sound (h : Starts s) : s.store.Sound := by
  cases h with
  | malloc =>
    refine ⟨Nat.le_refl _, by decide, fun b m hc => ?_⟩
    injection hc with h1 h2
    subst h1 h2
    exact ⟨by decide, fun hsome => absurd hsome false_ne_true⟩
  | caller buffer readOnly h =>
    have hcap : (onBuffer buffer readOnly).capacity = buffer.length := by
      simp [capacity, block, onBuffer]
    exact ⟨hcap.ge, hcap.trans_lt h, fun b m hc => absurd hc.symm Core.noConfusion⟩

theorem Starts.agrees (h : Starts s) : Agrees s.store s.contents := by
  cases h with
  | malloc => exact ⟨rfl, fun _ => rfl⟩
  | caller buffer readOnly h =>
    refine ⟨rfl, fun i => ?_⟩
    show buffer[i]? = (((buffer.map some))[i]?).join
    rw [List.getElem?_map]
    cases buffer[i]? <;> rfl

/-- **A memory store refines a byte array**: in every run of calls that observe what they have
to, every call is the one on the array. -/
theorem refines_contents {s : State} (h : Starts s) {as : List Action}
    (ho : AllSteps step Observes s as) : AllSteps step Refines s as := by
  have hkeep : ∀ s a s', s.store.Sound ∧ Agrees s.store s.contents → step s a = some s' →
      Observes s a → Refines s a ∧ s'.store.Sound ∧ Agrees s'.store s'.contents := ?_
  · exact AllSteps.imp hkeep as s ⟨h.sound, h.agrees⟩ ho
  intro s a s' hi hstep hobs
  obtain ⟨hv, hs'⟩ := Option.ite_none_right_eq_some.1 hstep
  obtain ⟨hrefines, hsound⟩ := right hi.1 hi.2 hv hobs
  rw [← Option.some.inj hs']
  exact ⟨hrefines, hsound, hrefines.agrees⟩

/-- Bytes written to a new store and read back, and the store cut down and reset. -/
theorem refines_hello :
    AllSteps step Refines ⟨newMalloc, .empty⟩
      [.setBlockSize 4, .write 2 [[104, 105], [33]] fun _ => true, .read 0 [3, 9],
        .setSize 4 fun _ => true, .reset] := by
  apply refines_contents .malloc
  refine .cons rfl trivial (.cons rfl (fun _ => ?_) (.cons rfl ?_ (.cons rfl (fun _ _ => ?_)
    (.cons rfl trivial trivial))))
  · refine ⟨.inr ⟨by decide, ⟨fun _ h => absurd h (by decide), fun _ => by decide⟩⟩,
      fun _ => ⟨by decide, fun st hst => ?_⟩⟩
    obtain ⟨⟩ := hst
    refine ⟨.inr ⟨by decide, ⟨fun _ h => absurd h (by decide), fun _ => by decide⟩⟩,
      fun _ => ⟨by decide, fun _ _ => trivial⟩⟩
  · show min _ _ ≤ limit
    decide
  · exact ⟨fun _ _ => rfl, fun h => absurd h (by decide)⟩

/-- After `Reset` the memory that was freed counts as there: a write gets none. -/
theorem not_refines_reset :
    ¬ ∀ s, Starts s → ∀ as, AllSteps step Refines s as := by
  intro h
  have hrun := h _ .malloc [.setBlockSize 4, .write 0 [[1]] fun _ => true, .reset,
    .write 0 [[1]] fun _ => true]
  obtain ⟨-, hrun⟩ := hrun _ rfl
  obtain ⟨-, hrun⟩ := hrun _ rfl
  obtain ⟨-, hrun⟩ := hrun _ rfl
  have hresult := (hrun _ rfl).1.result fun _ _ => Action.noConfusion
  exact absurd hresult (by decide)

end OpenBinder.BMemoryStore
