import OpenBinder.MemoryDealer.HeapLaw

/-!
# The heap does not remember

Chunks that abut are joined, so the free list is the one way to write down what is free: it depends
on the blocks that are in use and not on the calls that led there.

* `FreeList.unique`: two free lists that cover the same bytes are equal.
* `freeList_of_live`: the free lists of two runs that leave the same bytes in use.
-/

namespace OpenBinder

open Lib List

variable {l m : List Chunk} {c : Chunk} {top b : ℕ}

theorem cover_pos_of_mem (hc : c ∈ l) (hlo : c.start ≤ b) (hhi : b < c.start + c.size) :
    0 < cover l b := by
  rw [cover, countP_pos_iff]
  exact ⟨c, hc, by simp [Chunk.covers, hlo, hhi]⟩

theorem cover_eq_zero (h : ∀ c ∈ l, b < c.start) : cover l b = 0 := by
  rw [cover, countP_eq_zero]
  intro c hc
  simp [Chunk.covers, h c hc]

/-- Of two free lists that cover the same bytes, the first chunk of one is not before that of the
other, and reaches as far. -/
theorem FreeList.first_le {d : Chunk} (hl : FreeList (c :: l) top) (hm : FreeList (d :: m) top)
    (h : ∀ b, cover (c :: l) b = cover (d :: m) b) :
    d.start ≤ c.start ∧ (d.start = c.start → c.size ≤ d.size) := by
  obtain ⟨⟨hpos, -⟩, -, -⟩ := freeList_cons.1 hl
  obtain ⟨⟨hpos', -⟩, hbehind, -⟩ := freeList_cons.1 hm
  constructor
  · by_contra hlt
    have hcov := cover_pos_of_mem (b := c.start) (mem_cons_self (a := c) (l := l)) le_rfl (by omega)
    rw [h, cover_eq_zero] at hcov
    · omega
    · intro e he
      rcases mem_cons.1 he with rfl | he
      · omega
      · have := hbehind e he
        omega
  · intro heq
    by_contra hlt
    -- the byte behind `d` is in `c`, and no chunk abuts on `d`
    have hcov := cover_pos_of_mem (b := d.start + d.size) (mem_cons_self (a := c) (l := l))
      (by omega) (by omega)
    rw [h, cover_cons, if_neg (by omega), cover_eq_zero hbehind] at hcov
    omega

/-- **A free list is determined by what it covers.** -/
theorem FreeList.unique : ∀ {l m : List Chunk}, FreeList l top → FreeList m top →
    (∀ b, cover l b = cover m b) → l = m := by
  intro l
  induction l with
  | nil =>
    intro m _ hm h
    cases m with
    | nil => rfl
    | cons d m =>
      obtain ⟨⟨hpos, -⟩, -, -⟩ := freeList_cons.1 hm
      have hcov := cover_pos_of_mem (b := d.start) (mem_cons_self (a := d) (l := m)) le_rfl (by omega)
      rw [← h] at hcov
      exact absurd hcov (lt_irrefl 0)
  | cons c l ih =>
    intro m hl hm h
    cases m with
    | nil =>
      obtain ⟨⟨hpos, -⟩, -, -⟩ := freeList_cons.1 hl
      have hcov := cover_pos_of_mem (b := c.start) (mem_cons_self (a := c) (l := l)) le_rfl (by omega)
      rw [h] at hcov
      exact absurd hcov (lt_irrefl 0)
    | cons d m =>
      obtain ⟨hle, hsize⟩ := hl.first_le hm h
      obtain ⟨hle', hsize'⟩ := hm.first_le hl fun b => (h b).symm
      have hstart : d.start = c.start := le_antisymm hle hle'
      obtain rfl : c = d := by
        obtain ⟨start, size⟩ := c
        obtain ⟨start', size'⟩ := d
        simp only [Chunk.mk.injEq]
        exact ⟨hstart.symm, le_antisymm (hsize hstart) (hsize' hstart.symm)⟩
      rw [ih (freeList_cons.1 hl).2.2 (freeList_cons.1 hm).2.2 fun b => ?_]
      have hb := h b
      rw [cover_cons, cover_cons] at hb
      omega

namespace HeapArea

/-- A heap that some calls have led to. -/
def Reached (h : HeapArea) : Prop :=
  ∃ pageSize, ∃ size : BitVec 32, ∃ mapped memory as,
    run step (init pageSize size.toNat mapped memory) as = some h

theorem Reached.inv {h : HeapArea} (hh : h.Reached) : h.Inv := by
  obtain ⟨pageSize, size, mapped, memory, as, hrun⟩ := hh
  have hall : AllStates step Inv (init pageSize size.toNat mapped memory) as :=
    AllStates.of_keep (fun _ _ _ hi hs => hi.step hs) as _ (.init pageSize size mapped memory)
  exact hall.last hrun

/-- **The free list depends on what is in use** and on nothing else that happened: not on the order
of the calls, on the blocks that were freed or grew meanwhile, or on the pages. A heap with nothing
in use is in one piece again. -/
theorem freeList_of_live {h g : HeapArea} (hh : h.Reached) (hg : g.Reached) (hsize : h.size = g.size)
    (hlive : ∀ b, cover h.live b = cover g.live b) :
    h.freeList = g.freeList ∧ ((∀ c ∈ h.live, c.size = 0) → h.freeList = wholeFree h.size) := by
  constructor
  · refine hh.inv.list.unique (hsize ▸ hg.inv.list) fun b => ?_
    have hcov := hh.inv.covered b
    have hcov' := hg.inv.covered b
    rw [hsize, hlive] at hcov
    omega
  · intro hempty
    obtain ⟨hlist, hcover⟩ := wholeFree_spec hh.inv.dvd_size
    refine hh.inv.list.unique hlist fun b => ?_
    have hzero : cover h.live b = 0 := by
      rw [cover, countP_eq_zero]
      intro c hc
      simp [Chunk.covers, hempty c hc]
    rw [hcover, ← hh.inv.covered b, hzero, add_zero]

/-- A page. -/
def onePage : HeapArea := init .small (4096 : BitVec 32).toNat true fun _ => 0

/-- A block that is freed again, and nothing at all. -/
theorem freeList_of_live_onePage : ∃ h, run step onePage [.alloc 32, .free 0] = some h ∧
    h.freeList = onePage.freeList ∧ h.freeList = wholeFree h.size := by
  obtain ⟨h, hrun⟩ := Option.isSome_iff_exists.1
    (by decide : (run step onePage [.alloc 32, .free 0]).isSome = true)
  have hleft : (run step onePage [.alloc 32, .free 0]).map (fun h => (h.size, h.live)) =
      some (onePage.size, []) := by decide
  rw [hrun] at hleft
  obtain ⟨hsize, hempty⟩ := Prod.mk.inj (Option.some.inj hleft)
  have hlive := freeList_of_live ⟨_, _, _, _, _, hrun⟩ ⟨_, _, _, _, [], rfl⟩ hsize
    fun b => congrArg (cover · b) hempty
  exact ⟨h, hrun, hlive.1, hlive.2 fun c hc => absurd (hempty ▸ hc) not_mem_nil⟩

end HeapArea

end OpenBinder
