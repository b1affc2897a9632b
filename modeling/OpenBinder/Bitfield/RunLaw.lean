import OpenBinder.Bitfield.SearchLaw

/-!
# Runs of calls on bitfields

* `Sized`: what is lost where a field does not fit.
* `Refines.fits_of_resize`, `fits_of_construct`: only what fits is resized right.
* `exact_lists_iff`: **the fields are lists of booleans in every state of a run** exactly if every call
  is one that does not go wrong.
-/

namespace OpenBinder.SBitfield

open Lib Function List Option

variable {f f' : SBitfield} {l : List Bool} {value : Bool} {start len bits : ℕ} {memory : Memory}

/-! ### Sizes -/

/-- **A field of some number of bits**, with the words for them. -/
def Sized (f : SBitfield) (n : ℕ) : Prop :=
  f.numBits = n ∧ n < 2 ^ 31 ∧ ∀ words, f.store = .bits words → words.length = (n + 31) / 32

theorem Refines.sized (h : Refines f l) : Sized f l.length :=
  ⟨h.numBits, h.small, fun words hw => (h.heap words hw).2.1⟩

theorem length_fillHeap {info : FillInfo} {words words' : List (BitVec 32)}
    (h : fillHeap value info words = some words') : words'.length = words.length := by
  unfold fillHeap at h
  split at h
  · exact (bitAt_modifyWord h 0).1
  · obtain ⟨words₁, h1, h⟩ := bind_eq_some_iff.1 h
    obtain ⟨words₂, h2, h3⟩ := bind_eq_some_iff.1 h
    have hlen₂ : words₂.length = words₁.length := by
      split at h2
      · exact (bitAt_fillWords h2 0).1
      · rw [Option.some.inj h2]
    exact (bitAt_modifyWord h3 0).1.trans (hlen₂.trans (bitAt_modifyWord h1 0).1)

variable {done : Bool}

theorem Sized.of_fill (h : fill value f start len = some (f', done)) (hsized : Sized f' bits) :
    Sized f bits := by
  unfold fill at h
  split at h
  · obtain ⟨⟩ := h
    exact hsized
  · dsimp only at h
    split at h
    · next hinline =>
      obtain ⟨word, hword, heq⟩ := map_eq_some_iff.1 h
      obtain ⟨rfl, -⟩ := Prod.mk.inj heq
      refine ⟨hsized.1, hsized.2.1, fun words hw => ?_⟩
      unfold SBitfield.word at hword
      rw [hw] at hword
      exact nomatch hword
    · obtain ⟨words, hwords, h⟩ := bind_eq_some_iff.1 h
      obtain ⟨words', hfill, heq⟩ := map_eq_some_iff.1 h
      obtain ⟨rfl, -⟩ := Prod.mk.inj heq
      refine ⟨hsized.1, hsized.2.1, fun words₀ hw => ?_⟩
      unfold SBitfield.words at hwords
      rw [hw] at hwords
      obtain ⟨⟩ := hwords
      rw [← length_fillHeap hfill]
      exact hsized.2.2 words' rfl

theorem Sized.of_clearGrown {oldBits : ℤ} {n : ℕ} (h : clearGrown f oldBits bits = some (f', done))
    (hsized : Sized f' n) : Sized f n := by
  obtain ⟨r, hr, heq⟩ := map_eq_some_iff.1 h
  obtain ⟨rfl, -⟩ := Prod.mk.inj heq
  exact hsized.of_fill hr

theorem Refines.fits_of_resize (h : Refines f l) (hwhole : Whole l)
    (hresize : SBitfield.resize f bits memory = some (f', done)) (hsized : Sized f' bits) :
    FitsResize f bits memory := by
  obtain ⟨hbits, hlarge, hwords'⟩ := hsized
  unfold SBitfield.resize at hresize
  rw [ssize_of_lt (by omega) (by omega)] at hresize
  rcases h.cases with ⟨word, rfl, hl32, -⟩ | ⟨words, rfl, hl32, hwords, -⟩
  · split at hresize
    · rw [if_pos (by unfold IsInline; dsimp only; omega)] at hresize
      obtain ⟨⟩ := hresize
      dsimp only at hbits
      rcases hwhole hl32 with hl | hl
      · exact .inl ⟨by omega, by dsimp only; omega⟩
      · exact .inr (.inl (by omega))
    · split at hresize
      · next h32 =>
        rw [if_pos (by unfold IsInline; dsimp only; omega)] at hresize
        refine .inr (.inr ⟨h32, hlarge, ?_, fun hlt => by dsimp only at hlt; omega⟩)
        rintro rfl
        exact nomatch hresize
      · split at hresize
        · have hgrown := Sized.of_clearGrown hresize ⟨hbits, hlarge, hwords'⟩
          exact .inr (.inl (by have := hgrown.1; dsimp only at this; omega))
        · obtain ⟨⟩ := hresize
          exact .inr (.inl (by dsimp only at hbits; omega))
  · rw [if_neg (show ¬ IsInline _ by unfold IsInline; dsimp only; omega)] at hresize
    split at hresize
    · rw [words_bits, bind_some] at hresize
      split at hresize
      · obtain ⟨word, -, heq⟩ := map_eq_some_iff.1 hresize
        obtain ⟨rfl, -⟩ := Prod.mk.inj heq
        exact .inr (.inl (by dsimp only at hbits; omega))
      · next hle h32 =>
        obtain ⟨⟩ := hresize
        refine .inr (.inr ⟨by omega, hlarge, ?_, fun _ hlt => by dsimp only at hle hlt; omega⟩)
        -- without memory no words are left
        rintro rfl
        have hnone := hwords' _ rfl
        simp only [realloc, map_none, getD_none, length_nil] at hnone
        omega
    · split at hresize
      · next hlt h32 =>
        rw [if_neg (show ¬ IsInline _ by unfold IsInline; dsimp only; omega), words_bits,
          bind_some] at hresize
        rcases hnew : realloc words (bits / 8 / 4) memory with _ | newbuf
        · rw [hnew] at hresize
          obtain ⟨⟩ := hresize
          omega
        · rw [hnew] at hresize
          have hgrown := (Sized.of_clearGrown hresize ⟨hbits, hlarge, hwords'⟩).2.2 newbuf rfl
          rw [length_realloc hnew] at hgrown
          refine .inr (.inr ⟨h32, hlarge, ?_, fun _ _ => by omega⟩)
          rintro rfl
          exact nomatch hnew
      · next hlt h32 =>
        dsimp only at hlt
        omega

/-! ### Constructors -/

theorem refines_empty : Refines empty [] where
  numBits := rfl
  small := by decide
  inline := fun _ _ => ⟨by decide, fun i hi => absurd hi (Nat.not_lt_zero i)⟩
  heap := nofun

theorem whole_nil : Whole [] := fun _ => .inl rfl

theorem resizeList_nil (n : ℕ) : resizeList [] n = List.replicate n false := by
  unfold resizeList
  rw [take_nil, nil_append, length_nil, Nat.sub_zero]

theorem fillList_replicate (n : ℕ) :
    (fillList true (List.replicate n false) 0 n).1 = List.replicate n true := by
  refine ext_getD (by rw [length_fillList, length_replicate, length_replicate])
    fun i hi => ?_
  rw [length_fillList, length_replicate] at hi
  rw [getD_fillList (by rw [length_replicate]; omega) (by rwa [length_replicate]),
    if_pos (by omega), getD_eq_getElem _ _ (by rwa [length_replicate]),
    getElem_replicate]

theorem refines_ofSizeInitial {size : ℕ} (initial : Bool) (hfits : FitsResize empty size memory) :
    ∃ f, ofSizeInitial size initial memory = some f ∧
      Refines f (List.replicate size initial) := by
  have hsize : ∃ f, ofSize size memory = some f ∧ Refines f (List.replicate size false) := by
    unfold ofSize
    by_cases h0 : size = 0
    · subst h0
      exact ⟨empty, rfl, refines_empty⟩
    · obtain ⟨f, hresize, hf⟩ := refines_empty.resize whole_nil hfits
      rw [if_pos h0, hresize, ← resizeList_nil]
      exact ⟨f, rfl, hf⟩
  obtain ⟨f, hf, href⟩ := hsize
  unfold ofSizeInitial
  rw [hf, bind_some]
  cases initial with
  | false => exact ⟨f, rfl, href⟩
  | true =>
    have hsmall := href.small
    rw [length_replicate] at hsmall
    have hfill : FitsFill true f 0 size := by
      have hbits := href.numBits
      rw [length_replicate] at hbits
      exact .inr ⟨by omega, fun h0 => .inr (.inl (by omega))⟩
    obtain ⟨f', hset, hf'⟩ := href.fill_fits hfill
    rw [fillList_replicate] at hf'
    refine ⟨f', ?_, hf'⟩
    unfold set
    rw [if_pos rfl, hset]
    rfl

theorem fits_of_construct {size : ℕ} {initial : Bool}
    (h : ofSizeInitial size initial memory = some f) (hsized : Sized f size) :
    FitsResize empty size memory := by
  by_cases h0 : size = 0
  · exact .inl ⟨h0, rfl⟩
  · unfold ofSizeInitial ofSize at h
    rw [if_pos h0] at h
    obtain ⟨f₁, hmade, h⟩ := bind_eq_some_iff.1 h
    obtain ⟨r, hresize, rfl⟩ := map_eq_some_iff.1 hmade
    have hsized₁ : Sized (if r.2 then r.1 else { r.1 with numBits := noMemory }) size := by
      split at h
      · obtain ⟨r', hset, rfl⟩ := map_eq_some_iff.1 h
        exact hsized.of_fill hset
      · rw [Option.some.inj h]
        exact hsized
    have hr : Sized r.1 size := by
      split at hsized₁
      · exact hsized₁
      · have hneg := hsized₁.1
        dsimp only at hneg
        rw [show noMemory = -2147482364 by decide] at hneg
        omega
    exact refines_empty.fits_of_resize whole_nil hresize hr

theorem Refines.ofCopy (h : Refines f l) (hmem : 32 < f.numBits → memory ≠ none) :
    f.ofCopy memory = some f := by
  have hsmall := h.small
  unfold SBitfield.ofCopy
  rcases h.cases with ⟨word, rfl, hl32, -⟩ | ⟨words, rfl, hl32, hwords, -⟩
  · rw [if_pos (by dsimp only; omega), if_pos (by unfold IsInline; dsimp only; omega)]
    rfl
  · have hn : (size (l.length : ℤ)).toNat = l.length := by
      rw [size_of_lt (by omega) (by omega), Int.toNat_natCast]
    rw [if_pos (by dsimp only; omega), if_neg (by unfold IsInline; dsimp only; omega)]
    have hfits : FitsResize empty l.length memory :=
      .inr (.inr ⟨hl32, hsmall, hmem (by dsimp only; omega),
        fun hlt => absurd hlt (by decide)⟩)
    obtain ⟨f', hresize, -⟩ := refines_empty.resize whole_nil hfits
    rw [hn, hresize, bind_some, if_pos rfl, words_bits, bind_some,
      allocSize_eq hsmall, if_neg (by omega), take_of_length_le (by omega)]

theorem Refines.memory_of_copy (h : Refines f l) (hcopy : f.ofCopy memory = some f') :
    32 < f.numBits → memory ≠ none := by
  rintro h32 rfl
  have hsmall := h.small
  rw [h.numBits] at h32
  have hn : (size f.numBits).toNat = l.length := by
    rw [h.numBits, size_of_lt (by omega) (by omega), Int.toNat_natCast]
  have hresize : empty.resize l.length none = none := by
    unfold SBitfield.resize
    have hzero : empty.numBits = 0 := rfl
    rw [ssize_of_lt (by omega) (by omega), hzero, if_neg (by omega), if_pos (by omega),
      if_pos (show empty.IsInline by decide)]
    rfl
  unfold SBitfield.ofCopy at hcopy
  rw [if_pos (by rw [h.numBits]; omega), if_neg (by unfold IsInline; rw [h.numBits]; omega), hn,
    hresize] at hcopy
  exact nomatch hcopy

/-! ### Runs -/

namespace Fields

variable {s s' : Fields} {id : ℕ}

/-- **The fields are lists**, of no bits, 32 or more. -/
def Inv (s : Fields) : Prop := Exact s ∧ ∀ id f l, s.field id = some (f, l) → Whole l

theorem inv_start : Inv Fields.start := ⟨⟨rfl, nofun⟩, nofun⟩

theorem Inv.put (h : Inv s) (hf : Refines f l) (hl : Whole l) (id : ℕ) :
    Inv (s.put id (some f) l true) := by
  obtain ⟨⟨hsound, hfields⟩, hwhole⟩ := h
  have hfield : ∀ i g m, (s.put id (some f) l true).field i = some (g, m) →
      (g = f ∧ m = l) ∨ s.field i = some (g, m) := by
    intro i g m hi
    change update s.field id (some (f, l)) i = some (g, m) at hi
    by_cases heq : i = id
    · rw [heq, update_self] at hi
      obtain ⟨⟩ := hi
      exact .inl ⟨rfl, rfl⟩
    · rw [update_of_ne heq] at hi
      exact .inr hi
  refine ⟨⟨?_, fun i g m hi => ?_⟩, fun i g m hi => ?_⟩
  · show (s.sound && true) = true
    rw [hsound]
    rfl
  · rcases hfield i g m hi with ⟨rfl, rfl⟩ | hi'
    · exact hf
    · exact hfields i g m hi'
  · rcases hfield i g m hi with ⟨rfl, rfl⟩ | hi'
    · exact hl
    · exact hwhole i g m hi'

theorem Exact.of_put {made : Option SBitfield} {agrees : Bool}
    (h : Exact (s.put id made l agrees)) :
    ∃ f, made = some f ∧ agrees = true ∧ Refines f l := by
  cases made with
  | none => exact absurd h.1 Bool.false_ne_true
  | some f =>
    refine ⟨f, rfl, (Bool.and_eq_true_iff.1 h.1).2, h.2 id f l ?_⟩
    exact update_self id (some (f, l)) s.field

theorem whole_resizeList (hfits : FitsResize f bits memory) : Whole (resizeList l bits) := by
  intro hle
  rw [length_resizeList] at hle ⊢
  rcases hfits with ⟨h0, -⟩ | h32 | ⟨h32, -⟩ <;> omega

/-- **The calls that do not go wrong** keep the fields lists. -/
theorem Inv.step {call : Call} (h : Inv s) (hs : Fields.step s call = some s')
    (hq : Observes s call) : Inv s' := by
  obtain ⟨⟨hsound, hfields⟩, hwhole⟩ := id h
  cases call with
  | construct id size initial memory =>
    obtain ⟨⟩ := hs
    obtain ⟨f, hf, href⟩ := refines_ofSizeInitial initial hq
    rw [hf]
    refine h.put href ?_ id
    have hw := whole_resizeList (l := []) hq
    intro hle
    rw [length_replicate] at hle ⊢
    rw [← length_resizeList [] size.toNat]
    exact hw (by rwa [length_resizeList])
  | copy id source memory =>
    obtain ⟨⟨f, l⟩, hsource, rfl⟩ := map_eq_some_iff.1 hs
    have href := hfields source f l hsource
    rw [href.ofCopy (hq (f, l) hsource)]
    exact h.put href (hwhole source f l hsource) id
  | resize id bits memory =>
    obtain ⟨⟨f, l⟩, hid, rfl⟩ := map_eq_some_iff.1 hs
    have hfits : FitsResize f bits.toNat memory := hq (f, l) hid
    obtain ⟨f', hresize, hf'⟩ := (hfields id f l hid).resize (hwhole id f l hid) hfits
    rw [hresize]
    exact h.put hf' (whole_resizeList hfits) id
  | fill value id start len =>
    obtain ⟨⟨f, l⟩, hid, rfl⟩ := map_eq_some_iff.1 hs
    obtain ⟨f', hfill, hf'⟩ := (hfields id f l hid).fill_fits (hq (f, l) hid)
    have hl' : Whole (fillList value l start.toNat len.toNat).1 := by
      have hl := hwhole id f l hid
      unfold Whole
      rw [length_fillList]
      exact hl
    dsimp only
    rw [hfill, map_some, map_some, decide_eq_true rfl]
    exact h.put hf' hl' id
  | testAndSet id bit =>
    obtain ⟨⟨f, l⟩, hid, hs⟩ := bind_eq_some_iff.1 hs
    obtain ⟨hbit, hs⟩ := ite_none_right_eq_some.1 hs
    obtain ⟨⟩ := hs
    obtain ⟨f', htest, hf'⟩ := (hfields id f l hid).testAndSet hbit
    have hl' : Whole (l.set bit true) := by
      have hl := hwhole id f l hid
      unfold Whole
      rw [length_set]
      exact hl
    rw [htest, map_some, map_some, getD_eq_getElem _ _ hbit,
      List.getElem?_eq_getElem hbit, decide_eq_true rfl]
    exact h.put hf' hl' id
  | first value id =>
    obtain ⟨⟨f, l⟩, hid, rfl⟩ := map_eq_some_iff.1 hs
    have hfirst := (first_iff (hfields id f l hid) (hwhole id f l hid)).2 (hq (f, l) hid)
    refine ⟨⟨?_, hfields⟩, hwhole⟩
    rw [hsound, hfirst, decide_eq_true rfl]
    rfl
  | equals id other =>
    obtain ⟨⟨f, l⟩, hid, hs⟩ := bind_eq_some_iff.1 hs
    obtain ⟨⟨g, m⟩, hother, rfl⟩ := map_eq_some_iff.1 hs
    have hequal : SBitfield.equals f g (decide (id = other)) = some (decide (l = m)) := by
      rcases hq with rfl | hq
      · obtain ⟨rfl, rfl⟩ := Prod.mk.inj (Option.some.inj (hid.symm.trans hother))
        unfold SBitfield.equals
        rw [decide_eq_true rfl, decide_eq_true rfl, if_pos rfl]
      · by_cases heq : id = other
        · subst heq
          obtain ⟨rfl, rfl⟩ := Prod.mk.inj (Option.some.inj (hid.symm.trans hother))
          unfold SBitfield.equals
          rw [decide_eq_true rfl, decide_eq_true rfl, if_pos rfl]
        · rw [decide_eq_false heq]
          exact (equals_iff (hfields id f l hid) (hfields other g m hother)
            (hwhole id f l hid)).2 (hq (f, l) hid (g, m) hother)
    refine ⟨⟨?_, hfields⟩, hwhole⟩
    rw [hsound, hequal, decide_eq_true rfl]
    rfl

theorem Inv.observes {call : Call} (h : Inv s) (hs : Fields.step s call = some s')
    (h' : Exact s') : Observes s call := by
  obtain ⟨⟨hsound, hfields⟩, hwhole⟩ := h
  cases call with
  | construct id size initial memory =>
    obtain ⟨⟩ := hs
    obtain ⟨f, hf, -, href⟩ := h'.of_put
    have hsized := href.sized
    rw [length_replicate] at hsized
    exact fits_of_construct hf hsized
  | copy id source memory =>
    obtain ⟨⟨f, l⟩, hsource, rfl⟩ := map_eq_some_iff.1 hs
    obtain ⟨f', hf, -, -⟩ := h'.of_put
    intro p hp
    obtain ⟨⟩ := hsource.symm.trans hp
    exact (hfields source f l hsource).memory_of_copy hf
  | resize id bits memory =>
    obtain ⟨⟨f, l⟩, hid, rfl⟩ := map_eq_some_iff.1 hs
    obtain ⟨f', hf, -, href⟩ := h'.of_put
    obtain ⟨⟨f', done⟩, hresize, rfl⟩ := map_eq_some_iff.1 hf
    intro p hp
    obtain ⟨⟩ := hid.symm.trans hp
    have hsized := href.sized
    rw [length_resizeList] at hsized
    exact (hfields id f l hid).fits_of_resize (hwhole id f l hid) hresize hsized
  | fill value id start len =>
    obtain ⟨⟨f, l⟩, hid, rfl⟩ := map_eq_some_iff.1 hs
    obtain ⟨f', hf, hagrees, href⟩ := h'.of_put
    obtain ⟨⟨f', done⟩, hfill, rfl⟩ := map_eq_some_iff.1 hf
    intro p hp
    obtain ⟨⟩ := hid.symm.trans hp
    rw [hfill, decide_eq_true_eq, map_some, some_inj] at hagrees
    rw [show done = (fillList value l start.toNat len.toNat).2 from hagrees] at hfill
    exact (hfields id f l hid).fits_of_fill (hwhole id f l hid) hfill href
  | testAndSet id bit => trivial
  | first value id =>
    obtain ⟨⟨f, l⟩, hid, rfl⟩ := map_eq_some_iff.1 hs
    intro p hp
    obtain ⟨⟩ := hid.symm.trans hp
    exact (first_iff (hfields id f l hid) (hwhole id f l hid)).1
      (of_decide_eq_true (Bool.and_eq_true_iff.1 h'.1).2)
  | equals id other =>
    obtain ⟨⟨f, l⟩, hid, hs⟩ := bind_eq_some_iff.1 hs
    obtain ⟨⟨g, m⟩, hother, rfl⟩ := map_eq_some_iff.1 hs
    by_cases heq : id = other
    · exact .inl heq
    · right
      intro p hp q hq
      obtain ⟨⟩ := hid.symm.trans hp
      obtain ⟨⟩ := hother.symm.trans hq
      have hequal := of_decide_eq_true (Bool.and_eq_true_iff.1 h'.1).2
      rw [decide_eq_false heq] at hequal
      exact (equals_iff (hfields id f l hid) (hfields other g m hother)
        (hwhole id f l hid)).1 hequal

end Fields

open Fields in
/-- **Fields are lists of booleans** in every state of a run, and every call is one on lists, exactly
if no call goes wrong. -/
theorem exact_lists_iff (calls : List Call) :
    AllStates Fields.step Exact Fields.start calls ↔
      AllSteps Fields.step Observes Fields.start calls :=
  allStates_iff_allSteps (fun _ h => And.left h) (fun _ _ _ h hs hq => Inv.step h hs hq)
    (fun _ _ _ h hs h' => Inv.observes h hs h') calls Fields.start inv_start

open Fields in
/-- A field of 17 bits has 32. -/
theorem seventeen_bits :
    ¬ ∀ calls : List Call, AllStates Fields.step Exact Fields.start calls := by
  intro h
  have hlast := (h [.construct 0 17 false (some fun _ => 0)]).last
    (rfl : run Fields.step _ _ = some _)
  have hbits := (hlast.2 0 ⟨32, .inlineBits 0⟩ (List.replicate 17 false) (by decide)).numBits
  rw [length_replicate] at hbits
  exact absurd hbits (by decide)

end OpenBinder.SBitfield
