import OpenBinder.MemoryDealer.HeapLaw

/-!
# Blocks that are given another size

* `AllOrNothing`: what is promised of `Realloc`.
* `realloc_iff`: in every state of a heap the promise is kept for the sizes that need as many quanta,
  and for blocks of no bytes. To less quanta the block is cut and a failure is returned, and to more
  the call never returns, since `Alloc` waits for the lock that `Realloc` has.
-/

namespace OpenBinder.HeapArea

open Lib

variable {h : HeapArea} {p o n : ℕ}

/-- A block of some size is allocated at an address. -/
def Allocated (h : HeapArea) (p o : ℕ) : Prop :=
  p ≠ nonzeroNull ∧ Hasher.retrieve h.allocs p = some o

/-- **All or nothing**: `Realloc` of a block fails and leaves the block with its contents and the free
list as they are, or it returns a block of the new size, apart from all others, with the contents of
the old one. -/
def AllOrNothing (h : HeapArea) (p o n : ℕ) : Prop :=
  ∃ h' r, h.realloc p n = some (h', r) ∧
    (r = nonzeroNull ∧ Allocated h' p o ∧ h'.freeList = h.freeList ∧
        (∀ i < o, h'.memory (p + i) = h.memory (p + i)) ∨
      ∃ s rest, Allocated h' r s ∧ n ≤ s ∧ r + s ≤ h'.size ∧ h'.live.Perm (⟨r, s⟩ :: rest) ∧
        (∀ b, r ≤ b → b < r + s → ∀ c ∈ rest, c.covers b = false) ∧
        ∀ i < min o n, h'.memory (r + i) = h.memory (p + i))

theorem le_quantized (hn : n < 2 ^ 32) (hq : Chunker.quantized n ≠ 0) : n ≤ Chunker.quantized n := by
  rcases Nat.lt_or_ge (n + 31) (2 ^ 32) with hlt | hge
  · rw [quantized_of_lt hlt]
    omega
  · exact absurd (quantized_of_ge hge hn) hq

theorem Inv.allOrNothing_same (hi : Inv h) (hp : Allocated h p o) (hn : n < 2 ^ 32) (ho : o ≠ 0)
    (hq : Chunker.quantized n = o) : AllOrNothing h p o n := by
  obtain ⟨rest, hlive, -⟩ := Hasher.retrieve_spec hp.2
  have hend : p + o ≤ h.size := hi.end_le (hlive.mem_iff.2 List.mem_cons_self)
    (Nat.pos_of_ne_zero ho)
  have hle : n ≤ o := hq ▸ le_quantized hn (by rw [hq]; exact ho)
  refine ⟨h, p, hi.realloc_same hp.1 hp.2 ho hq, .inr ⟨o, rest, hp, hle, hend, hlive, ?_,
    fun i _ => rfl⟩⟩
  intro b hlo hhi c hc
  have hzero := (hi.notMem_other hlive hlo hhi).2
  rw [cover, List.countP_eq_zero] at hzero
  exact Bool.eq_false_iff.2 (hzero c hc)

theorem Inv.allOrNothing_empty (hi : Inv h) (hp : Allocated h p 0) : AllOrNothing h p 0 n :=
  ⟨h, nonzeroNull, hi.realloc_empty n hp.1 hp.2, .inl ⟨rfl, hp, rfl, fun _ _ => rfl⟩⟩

theorem Inv.not_allOrNothing_less (hi : Inv h) (hp : Allocated h p o) (hn : n < 2 ^ 32)
    (hq : Chunker.quantized n < o) : ¬AllOrNothing h p o n := by
  rintro ⟨h', r, hrealloc, hcase⟩
  rw [hi.realloc_less hp.1 hp.2 hq] at hrealloc
  obtain ⟨⟩ := hrealloc
  rcases hcase with ⟨-, -, hfree, -⟩ | ⟨s, rest, hr, -⟩
  · obtain ⟨rest, hlive, -, -, hassign⟩ := Hasher.retrieve_spec hp.2
    have hfreed := (hi.freed hlive hq (quantized_dvd n hn) (cover_perm (hassign _))
      fun c hc => (hassign _).mem_iff.1 hc).1
    -- the first byte that was cut off is covered by the new list and not by the old one
    have hnew := hfreed.cover (p + Chunker.quantized n)
    rw [cover_cons, if_pos (by dsimp only; omega)] at hnew
    dsimp only at hfree
    rw [hfree] at hnew
    omega
  · exact hr.1 rfl

theorem Inv.not_allOrNothing_more (hi : Inv h) (hp : Allocated h p o) (ho : o ≠ 0)
    (hq : o < Chunker.quantized n) : ¬AllOrNothing h p o n := by
  rintro ⟨h', r, hrealloc, -⟩
  rw [hi.realloc_more hp.1 hp.2 ho hq] at hrealloc
  exact absurd hrealloc (by simp)

/-- **`Realloc` is all or nothing** in every state that a heap can be in, and for every block of it,
exactly for the sizes that need as many quanta as the block has, or if the block has no bytes. -/
theorem realloc_iff (pageSize : PageSize) (size : BitVec 32) (mapped : Bool) (memory : ℕ → Byte)
    (actions : List Action) :
    AllStates step (fun h => ∀ (p o : ℕ) (n : BitVec 32), Allocated h p o →
        (AllOrNothing h p o n.toNat ↔ Chunker.quantized n.toNat = o ∨ o = 0))
      (init pageSize size.toNat mapped memory) actions := by
  have hinv : AllStates step Inv (init pageSize size.toNat mapped memory) actions :=
    AllStates.of_keep (fun _ _ _ hi hs => hi.step hs) actions _
      (Inv.init pageSize size mapped memory)
  refine AllStates.imp (fun h hi p o n hp => ⟨fun hall => ?_, ?_⟩) actions _ hinv
  · by_contra hno
    rw [not_or] at hno
    rcases Nat.lt_or_gt_of_ne hno.1 with hq | hq
    · exact hi.not_allOrNothing_less hp n.isLt hq hall
    · exact hi.not_allOrNothing_more hp hno.2 hq hall
  · rintro (hq | rfl)
    · by_cases ho : o = 0
      · subst ho
        exact hi.allOrNothing_empty hp
      · exact hi.allOrNothing_same hp n.isLt ho hq
    · exact hi.allOrNothing_empty hp

/-- A heap of one page. -/
def page : HeapArea := init .small 4096 false fun _ => 0

/-- A block of 64 bytes can neither grow nor shrink. -/
theorem realloc_block : ∃ h, run step page [.alloc 64] = some h ∧ Allocated h 0 64 ∧
    ¬AllOrNothing h 0 64 128 ∧ ¬AllOrNothing h 0 64 32 := by
  refine ⟨_, rfl, ⟨by decide, rfl⟩, ?_, ?_⟩
  · rintro ⟨h', r, hrealloc, -⟩
    exact absurd hrealloc.symm (Option.some_ne_none _)
  · rintro ⟨h', r, hrealloc, hcase⟩
    obtain ⟨⟩ := hrealloc
    rcases hcase with ⟨-, -, hfree, -⟩ | ⟨s, rest, hr, -⟩
    · exact absurd hfree (by decide)
    · exact hr.1 rfl

end OpenBinder.HeapArea
