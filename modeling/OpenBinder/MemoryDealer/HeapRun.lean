import OpenBinder.MemoryDealer.PageBitsLaw
import OpenBinder.MemoryDealer.Realloc

/-!
# The heap over whole runs

A heap, with the sizes that its blocks were asked for.

* `HeapRun.Sound`: no byte is free twice, allocated twice, or both, every block is as large as asked
  for, and its pages are mapped.
* `mapRequired_spec`, `Inv.unmapFreed_spec`: the pages that are mapped, and unmapped.
* `sound_of_observes`: **in every run** the heap stays so, unless a block is cut by a `Realloc` that
  fails, or no bytes are asked for where the pages are counted from the end of the address space.
-/

namespace OpenBinder

open Lib Function
open Nat hiding size

/-- A heap and what its blocks were asked for, by address. -/
structure HeapRun where
  heap : HeapArea
  wanted : ℕ → ℕ
  faulted : Bool

namespace HeapRun

open HeapArea (Allocated Action)

/-- A new heap. -/
def init (pageSize : PageSize) (size : ℕ) (mapped : Bool) (memory : ℕ → Byte) : HeapRun :=
  ⟨.init pageSize size mapped memory, fun _ => 0, false⟩

/-- A call that returns an address for a size, or fails. -/
def returned (s : HeapRun) (size : ℕ) (r : HeapArea × ℕ) : HeapRun :=
  { s with
    heap := r.1
    wanted := if r.2 = nonzeroNull then s.wanted else update s.wanted r.2 size }

def alloc (s : HeapRun) (size : ℕ) : HeapRun :=
  ((s.heap.alloc size).map (s.returned size)).getD { s with faulted := true }

/-- A call. `Realloc` is called for a block, or for none, and what waits forever does not come to
another state. -/
def step (s : HeapRun) : Action → Option HeapRun
  | .alloc size => some (s.alloc size.toNat)
  | .realloc ptr newSize =>
    if ptr.toNat = nonzeroNull then some (s.alloc newSize.toNat)
    else (s.heap.realloc ptr.toNat newSize.toNat).map (s.returned newSize.toNat)
  | .free ptr =>
    some (((s.heap.free ptr.toNat).map fun h =>
      { s with heap := h, wanted := update s.wanted ptr.toNat 0 }).getD
        { s with faulted := true })
  | .reset =>
    some ((s.heap.reset.map fun h => { s with heap := h, wanted := fun _ => 0 }).getD
      { s with faulted := true })

/-- **The heap never hands out a byte twice.** -/
structure Sound (mapped : Bool) (s : HeapRun) : Prop where
  defined : s.faulted = false
  parted : ∀ b, cover s.heap.freeList b + cover s.heap.live b = if b < s.heap.size then 1 else 0
  sorted : s.heap.freeList.Pairwise fun c d => c.start + c.size < d.start
  nonempty : ∀ c ∈ s.heap.freeList, 0 < c.size
  wanted : ∀ p o, Allocated s.heap p o → s.wanted p ≤ o
  pages : mapped = false → ∀ c ∈ s.heap.live, ∀ b, c.covers b = true →
    PageBits.bit s.heap.mapped (b / s.heap.pageSize.bytes) = true

/-- No bytes can be mapped: all pages are mapped, or the first free chunk is not at the start, or
there are bits for the last page of the address space. -/
def CanMapNone (h : HeapArea) : Prop :=
  h.mapped.length = 0 ∨ (∃ c ∈ h.freeList.head?, 0 < c.start) ∨
    h.pageOf 0xFFFFFFFF / 32 < h.mapped.length

/-- The calls that do not go wrong. -/
def Observes (s : HeapRun) : Action → Prop
  | .alloc size => size.toNat = 0 → CanMapNone s.heap
  | .realloc ptr newSize =>
    (ptr.toNat = nonzeroNull → newSize.toNat = 0 → CanMapNone s.heap) ∧
      ∀ o, Allocated s.heap ptr.toNat o → o ≤ Chunker.quantized newSize.toNat
  | .free _ | .reset => True

end HeapRun

/-! ### Pages -/

theorem PageSize.bytes_pos (pageSize : PageSize) : 0 < pageSize.bytes := Nat.two_pow_pos _

theorem PageSize.and_maskOf_bytes (pageSize : PageSize) {n : ℕ} (hn : n < 2 ^ 32) :
    n &&& maskOf pageSize.bytes = n / pageSize.bytes * pageSize.bytes :=
  and_maskOf hn

namespace HeapArea

variable {h h' : HeapArea}

theorem pageOf_eq (h : HeapArea) {n : ℕ} (hn : n < 2 ^ 32) : h.pageOf n = n / h.pageSize.bytes := by
  rw [pageOf, h.pageSize.and_maskOf_bytes hn, Nat.mul_div_cancel _ h.pageSize.bytes_pos]

theorem page_lt (h : HeapArea) {n : ℕ} (hn : n < 2 ^ 32) : n / h.pageSize.bytes + 32 < 2 ^ 32 := by
  have hle : 2 ^ 5 ≤ h.pageSize.bytes := Nat.pow_le_pow_right (by decide) h.pageSize.le_bits
  have hdiv : n / h.pageSize.bytes ≤ n / 2 ^ 5 := div_le_div_left hle (by decide)
  omega

theorem turns_lt (first last : ℕ) : last / 32 + 1 < first / 32 + (last / 32 + 2) := by omega

theorem gives_or : PageBits.Gives (fun w mask => w ||| mask) true := by
  intro w mask j _
  rw [BitVec.getLsbD_or]
  cases mask.getLsbD j <;> simp

theorem gives_andNot : PageBits.Gives (fun w mask => w &&& ~~~mask) false := by
  intro w mask j hj
  rw [BitVec.getLsbD_and, BitVec.getLsbD_not, decide_eq_true hj]
  cases mask.getLsbD j <;> simp

theorem selects_andNot : PageBits.Selects (fun pages w => pages &&& ~~~w) true := by
  intro pages w j hj
  rw [BitVec.getLsbD_and, BitVec.getLsbD_not, decide_eq_true hj]
  cases w.getLsbD j <;> simp

theorem selects_and : PageBits.Selects (fun pages w => pages &&& w) false := by
  intro pages w j _
  rw [BitVec.getLsbD_and]
  cases w.getLsbD j <;> simp

variable {p s : ℕ} {mapped : Bool}

theorem mapRequired_spec (hp : p < 2 ^ 32)
    (hlast : h.mapped.length = 0 ∨ wordSub (p + s) 1 / h.pageSize.bytes / 32 < h.mapped.length) :
    ∃ m, h.mapRequired p s = some { h with mapped := m } ∧ m.length = h.mapped.length ∧
      (h.mapped.length ≠ 0 → ∀ i, PageBits.bit m i =
        if p / h.pageSize.bytes ≤ i ∧ i ≤ wordSub (p + s) 1 / h.pageSize.bytes then true
        else PageBits.bit h.mapped i) := by
  by_cases hlen : h.mapped.length = 0
  · refine ⟨h.mapped, ?_, rfl, fun hno => absurd hlen hno⟩
    rw [mapRequired, if_neg (not_not.2 hlen)]
  · have hlt : wordSub (p + s) 1 < 2 ^ 32 := mod_lt _ (by decide)
    obtain ⟨m, hm, hmlen, hbit⟩ := PageBits.loop_spec gives_or selects_andNot (h.page_lt hlt)
      (wordSub (p + s) 1 / h.pageSize.bytes / 32 + 2) (p / h.pageSize.bytes) h.mapped
      (hlast.resolve_left hlen) (succ_pos _) fun _ => turns_lt _ _
    refine ⟨m, ?_, hmlen, fun _ => hbit⟩
    rw [mapRequired, if_pos hlen]
    dsimp only
    rw [h.pageOf_eq hp, h.pageOf_eq hlt, hm]
    rfl

theorem mapRequired_congr (h g : HeapArea) {m : List (BitVec 32)} (hmapped : g.mapped = h.mapped)
    (hpage : g.pageSize = h.pageSize) (hm : h.mapRequired p s = some { h with mapped := m }) :
    g.mapRequired p s = some { g with mapped := m } := by
  unfold mapRequired pageOf at hm ⊢
  rw [hmapped, hpage]
  by_cases hlen : h.mapped.length ≠ 0
  · rw [if_pos hlen] at hm ⊢
    obtain ⟨m', hloop, heq⟩ := Option.map_eq_some_iff.1 hm
    obtain rfl : m' = m := congrArg HeapArea.mapped heq
    dsimp only
    rw [hloop]
    rfl
  · rw [if_neg hlen] at hm ⊢
    have heq : h.mapped = m := congrArg HeapArea.mapped (Option.some.inj hm)
    rw [← heq, ← hmapped, ← hpage]

theorem unmapRequired_spec (hp : p < 2 ^ 32) (hs : 0 < s)
    (hlast : h.mapped.length = 0 ∨ wordSub (p + s) 1 / h.pageSize.bytes / 32 < h.mapped.length) :
    ∃ m, h.unmapRequired p s = some { h with mapped := m } ∧ m.length = h.mapped.length ∧
      (h.mapped.length ≠ 0 → ∀ i, PageBits.bit m i =
        if p / h.pageSize.bytes ≤ i ∧ i ≤ wordSub (p + s) 1 / h.pageSize.bytes then false
        else PageBits.bit h.mapped i) := by
  by_cases hlen : h.mapped.length = 0
  · refine ⟨h.mapped, ?_, rfl, fun hno => absurd hlen hno⟩
    rw [unmapRequired, if_neg fun hno => hno.1 hlen]
  · have hlt : wordSub (p + s) 1 < 2 ^ 32 := mod_lt _ (by decide)
    obtain ⟨m, hm, hmlen, hbit⟩ := PageBits.loop_spec gives_andNot selects_and (h.page_lt hlt)
      (wordSub (p + s) 1 / h.pageSize.bytes / 32 + 2) (p / h.pageSize.bytes) h.mapped
      (hlast.resolve_left hlen) (succ_pos _) fun _ => turns_lt _ _
    refine ⟨m, ?_, hmlen, fun _ => hbit⟩
    rw [unmapRequired, if_pos ⟨hlen, by omega⟩]
    dsimp only
    rw [h.pageOf_eq hp, h.pageOf_eq hlt, hm]
    rfl

/-- Where bits are kept there is one for every page. -/
def Bits (mapped : Bool) (h : HeapArea) : Prop :=
  h.mapped.length = if mapped then 0 else (h.pages + 31) / 32

theorem bit_of_lt (hsize : h.size = h.pages * h.pageSize.bytes) (hb : Bits mapped h) {b : ℕ}
    (hlt : b < h.size) :
    h.mapped.length = 0 ∨ b / h.pageSize.bytes / 32 < h.mapped.length := by
  have hpage : b / h.pageSize.bytes < h.pages := by
    rw [div_lt_iff_lt_mul h.pageSize.bytes_pos, ← hsize]
    exact hlt
  unfold Bits at hb
  cases mapped with
  | true => exact .inl hb
  | false =>
    right
    rw [hb, if_neg (by simp)]
    omega

theorem Inv.mapRequired_block (hi : Inv h) (hb : Bits mapped h) (hs : 0 < s) (hend : p + s ≤ h.size)
    :
    ∃ m, h.mapRequired p s = some { h with mapped := m } ∧ m.length = h.mapped.length ∧
      (h.mapped.length ≠ 0 → (∀ i, PageBits.bit h.mapped i = true → PageBits.bit m i = true) ∧
        ∀ b, p ≤ b → b < p + s → PageBits.bit m (b / h.pageSize.bytes) = true) := by
  have hsize := hi.size_lt
  have hlast : wordSub (p + s) 1 = p + s - 1 := wordSub_of_le (by omega) (by omega)
  have hin := bit_of_lt hi.size_eq hb (by omega : p + s - 1 < h.size)
  rw [← hlast] at hin
  obtain ⟨m, hm, hlen, hbit⟩ := mapRequired_spec (by omega) hin
  refine ⟨m, hm, hlen, fun hne => ⟨fun i hold => ?_, fun b hlo hhi => ?_⟩⟩
  · rw [hbit hne, hold, ite_self]
  · rw [hbit hne, if_pos]
    rw [hlast]
    exact ⟨Nat.div_le_div_right hlo, Nat.div_le_div_right (by omega)⟩

/-- Where no bytes are allocated: at the first free chunk, if there is one. -/
theorem alloc_zero {l : List Chunk} {top : ℕ} (hl : FreeList l top) :
    (Chunker.alloc 0 l).2.1 = (l.head?.map Chunk.start).getD nonzeroNull := by
  cases l with
  | nil => rfl
  | cons c l =>
    obtain ⟨⟨hpos, -, -, hdvd⟩, -⟩ := freeList_cons.1 hl
    rw [Chunker.alloc, if_neg (not_lt_zero _), Chunker.quantum, word_of_lt (by decide),
      if_neg (by omega)]
    rfl

theorem Inv.mapRequired_none (hi : Inv h) (hb : Bits mapped h) (hcan : HeapRun.CanMapNone h) :
    ∃ m, h.mapRequired (Chunker.alloc 0 h.freeList).2.1 0 = some { h with mapped := m } ∧
      m.length = h.mapped.length ∧
      (h.mapped.length ≠ 0 → ∀ i, PageBits.bit h.mapped i = true → PageBits.bit m i = true) := by
  have hsize := hi.size_lt
  have hp : (Chunker.alloc 0 h.freeList).2.1 < 2 ^ 32 ∧
      (h.mapped.length = 0 ∨ wordSub ((Chunker.alloc 0 h.freeList).2.1 + 0) 1 / h.pageSize.bytes / 32
        < h.mapped.length) := by
    rw [alloc_zero hi.list, add_zero]
    constructor
    · cases hhead : h.freeList.head? with
      | none => exact (by decide : nonzeroNull < 2 ^ 32)
      | some c =>
        have hc := (hi.list.each c (List.mem_of_mem_head? hhead)).2.1
        show c.start < 2 ^ 32
        omega
    · rcases hcan with hzero | ⟨c, hhead, hpos⟩ | hlast
      · exact .inl hzero
      · obtain ⟨hcsize, hcend, -⟩ := hi.list.each c (List.mem_of_mem_head? hhead)
        rw [Option.mem_def.1 hhead]
        show _ ∨ wordSub c.start 1 / _ / 32 < _
        rw [wordSub_of_le (by omega) (by omega)]
        exact bit_of_lt hi.size_eq hb (by omega)
      · right
        rw [h.pageOf_eq (by decide)] at hlast
        refine lt_of_le_of_lt (Nat.div_le_div_right (Nat.div_le_div_right ?_)) hlast
        have : ∀ n, wordSub n 1 < 2 ^ 32 := fun n => Nat.mod_lt _ (by decide)
        exact Nat.le_of_lt_succ (this _)
  obtain ⟨m, hm, hlen, hbit⟩ := mapRequired_spec hp.1 hp.2
  refine ⟨m, hm, hlen, fun hne i hold => ?_⟩
  rw [hbit hne, hold, ite_self]

/-- **`Alloc`** that finds a block: its pages are mapped, and those that were mapped stay so. -/
theorem Inv.alloc_spec (hi : Inv h) {mapped : Bool} (hb : Bits mapped h) {n : ℕ}
    (ht : Chunker.Taken n h.freeList (Chunker.alloc n h.freeList) h.size)
    (hcan : n = 0 → HeapRun.CanMapNone h) :
    ∃ m, enter { h with locked := true, freeList := (Chunker.alloc n h.freeList).1 }
        (Chunker.alloc n h.freeList).2.1 (Chunker.alloc n h.freeList).2.2 =
      some ({ h with
        freeList := (Chunker.alloc n h.freeList).1
        allocs := Hasher.insert h.allocs (Chunker.alloc n h.freeList).2.1
          (Chunker.alloc n h.freeList).2.2
        mapped := m }, (Chunker.alloc n h.freeList).2.1) ∧ m.length = h.mapped.length ∧
      (h.mapped.length ≠ 0 → (∀ i, PageBits.bit h.mapped i = true → PageBits.bit m i = true) ∧
        ∀ b, (Chunker.alloc n h.freeList).2.1 ≤ b →
          b < (Chunker.alloc n h.freeList).2.1 + (Chunker.alloc n h.freeList).2.2 →
          PageBits.bit m (b / h.pageSize.bytes) = true) := by
  have hmap : ∃ m, h.mapRequired (Chunker.alloc n h.freeList).2.1 (Chunker.alloc n h.freeList).2.2 =
      some { h with mapped := m } ∧ m.length = h.mapped.length ∧
      (h.mapped.length ≠ 0 → (∀ i, PageBits.bit h.mapped i = true → PageBits.bit m i = true) ∧
        ∀ b, (Chunker.alloc n h.freeList).2.1 ≤ b →
          b < (Chunker.alloc n h.freeList).2.1 + (Chunker.alloc n h.freeList).2.2 →
          PageBits.bit m (b / h.pageSize.bytes) = true) := by
    by_cases hs : 0 < (Chunker.alloc n h.freeList).2.2
    · exact hi.mapRequired_block hb hs (ht.block hs).2
    · have hs0 : (Chunker.alloc n h.freeList).2.2 = 0 := by omega
      obtain rfl : n = 0 := by
        have := ht.size_le
        omega
      obtain ⟨m, hm, hlen, hbit⟩ := hi.mapRequired_none hb (hcan rfl)
      rw [hs0]
      exact ⟨m, hm, hlen, fun hne => ⟨hbit hne, fun b hlo hhi => by omega⟩⟩
  obtain ⟨m, hm, hrest⟩ := hmap
  refine ⟨m, ?_, hrest⟩
  have hentered := mapRequired_congr h { h with
    locked := true
    freeList := (Chunker.alloc n h.freeList).1
    allocs := Hasher.insert h.allocs (Chunker.alloc n h.freeList).2.1
      (Chunker.alloc n h.freeList).2.2 } rfl rfl hm
  refine (congrArg (Option.map fun h => (h.unlock, _)) hentered).trans ?_
  have hlocked := hi.unlocked
  cases h
  subst hlocked
  rfl

section

variable (hsize : h.size = h.pages * h.pageSize.bytes) (hlt : h.size < 2 ^ 32)
include hsize hlt

theorem size_add_le : h.size + h.pageSize.bytes ≤ 2 ^ 32 := by
  obtain ⟨k, hk⟩ : h.pageSize.bytes ∣ 2 ^ 32 := pow_dvd_pow 2 h.pageSize.bits_lt.le
  rw [hk, hsize, mul_comm, ← mul_succ]
  apply Nat.mul_le_mul_left
  rw [hk, hsize, mul_comm] at hlt
  exact Nat.lt_of_mul_lt_mul_left hlt

/-- **The pages that are free of a block** are whole ones, within the region that is free. -/
theorem freedPages_spec
 {region : Chunk} (hs : 0 < s) (hend : p + s ≤ h.size) (hlo : region.start ≤ p)
    (hhi : p + s ≤ region.start + region.size) (hregion : region.start + region.size < 2 ^ 32) :
    ∃ x y, h.freedPages p s region = (x * h.pageSize.bytes, y * h.pageSize.bytes) ∧
      region.start ≤ x * h.pageSize.bytes ∧
      y * h.pageSize.bytes ≤ region.start + region.size ∧ y * h.pageSize.bytes ≤ h.size := by
  have hpos := h.pageSize.bytes_pos
  have hroom := size_add_le hsize hlt
  have hleftMask := h.pageSize.and_maskOf_bytes (by omega : p < 2 ^ 32)
  have hrightWord := word_of_lt (by omega : p + s + (h.pageSize.bytes - 1) < 2 ^ 32)
  have hrightMask := h.pageSize.and_maskOf_bytes
    (by omega : p + s + (h.pageSize.bytes - 1) < 2 ^ 32)
  have hregionWord := word_of_lt hregion
  unfold freedPages
  dsimp only
  rw [hrightWord, hrightMask, hleftMask, hregionWord]
  generalize h.pageSize.bytes = n at *
  -- the pages that the block starts and ends in
  have hleft' := lt_div_mul_add hpos (a := p)
  have hright := div_mul_le_self (p + s + (n - 1)) n
  have hle : (p + s + (n - 1)) / n * n ≤ h.size := by
    rw [hsize]
    apply Nat.mul_le_mul_right
    rw [← Nat.lt_succ_iff, div_lt_iff_lt_mul hpos, succ_mul, ← hsize]
    omega
  have hone : n ≤ (p + s + (n - 1)) / n * n := by
    have h1 : 1 ≤ (p + s + (n - 1)) / n := (one_le_div_iff hpos).2 (by omega)
    calc n = 1 * n := (one_mul n).symm
      _ ≤ _ := Nat.mul_le_mul_right n h1
  refine ⟨if p / n * n < p then p / n + 1 else p / n,
    if region.start + region.size < (p + s + (n - 1)) / n * n then (p + s + (n - 1)) / n - 1
    else (p + s + (n - 1)) / n, ?_, ?_, ?_, ?_⟩
  · congr 1
    · split
      · rw [word_of_lt (by omega), succ_mul]
      · rfl
    · split
      · rw [wordSub_of_le hone (by omega), Nat.sub_mul, one_mul]
      · rfl
  · split
    · rw [succ_mul]
      omega
    · omega
  · split
    · rw [Nat.sub_mul, one_mul]
      omega
    · omega
  · split
    · rw [Nat.sub_mul, one_mul]
      omega
    · exact hle

theorem unmapFreed_spec
 (hb : Bits mapped h) {region : Chunk} (hs : 0 < s) (hend : p + s ≤ h.size) (hlo : region.start ≤ p)
    (hhi : p + s ≤ region.start + region.size) (hregion : region.start + region.size < 2 ^ 32) :
    ∃ m, h.unmapFreed p s region = some { h with mapped := m } ∧ m.length = h.mapped.length ∧
      (h.mapped.length ≠ 0 → ∀ b, ¬(region.start ≤ b ∧ b < region.start + region.size) →
        PageBits.bit h.mapped (b / h.pageSize.bytes) = true →
        PageBits.bit m (b / h.pageSize.bytes) = true) := by
  obtain ⟨x, y, hpages, hx, hy, hyend⟩ := freedPages_spec hsize hlt hs hend hlo hhi hregion
  rw [unmapFreed, hpages]
  by_cases hxy : x * h.pageSize.bytes < y * h.pageSize.bytes
  · have hlast : wordSub (x * h.pageSize.bytes + (y * h.pageSize.bytes - x * h.pageSize.bytes)) 1 =
        y * h.pageSize.bytes - 1 := by
      rw [Nat.add_sub_cancel' hxy.le]
      exact wordSub_of_le (by omega) (by omega)
    rw [if_pos hxy, wordSub_of_le hxy.le (by omega)]
    have hin := bit_of_lt hsize hb (by omega : y * h.pageSize.bytes - 1 < h.size)
    rw [← hlast] at hin
    obtain ⟨m, hm, hlen, hbit⟩ := unmapRequired_spec (by omega) (by omega) hin
    refine ⟨m, hm, hlen, fun hne b hout hold => ?_⟩
    rw [hbit hne, if_neg, hold]
    rw [hlast, Nat.mul_div_cancel _ h.pageSize.bytes_pos]
    rintro ⟨hxb, hby⟩
    -- a page that is unmapped has bytes of the region only
    have hleft : x * h.pageSize.bytes ≤ b :=
      (Nat.mul_le_mul_right _ hxb).trans (div_mul_le_self b _)
    have hright : b < y * h.pageSize.bytes := by
      rw [← div_lt_iff_lt_mul h.pageSize.bytes_pos]
      refine lt_of_le_of_lt hby ?_
      rw [div_lt_iff_lt_mul h.pageSize.bytes_pos]
      omega
    exact hout ⟨by omega, by omega⟩
  · rw [if_neg hxy]
    exact ⟨h.mapped, rfl, rfl, fun _ _ _ hold => hold⟩

end

end HeapArea

/-! ### Runs -/

namespace Hasher

variable {t : Table} {a a' s : ℕ}

theorem retrieve_update {l : List Chunk}
    (hl : l.find? (has a') = (t (hash a)).find? (has a')) :
    retrieve (update t (hash a) l) a' = retrieve t a' := by
  unfold retrieve
  by_cases hsame : hash a' = hash a
  · rw [hsame, update_self, hl]
  · rw [update_of_ne hsame]

theorem retrieve_insert (t : Table) (a s : ℕ) : retrieve (insert t a s) a = some s := by
  rw [retrieve, insert, update_self, List.find?_cons_of_pos (by simp [has])]
  rfl

theorem retrieve_insert_of_ne (hne : a' ≠ a) : retrieve (insert t a s) a' = retrieve t a' := by
  apply retrieve_update
  rw [List.find?_cons_of_neg]
  simpa [has] using hne.symm

theorem find?_eraseP (hne : a' ≠ a) (l : List Chunk) :
    (l.eraseP (has a)).find? (has a') = l.find? (has a') := by
  induction l with
  | nil => rfl
  | cons c l ih =>
    by_cases hc : has a c = true
    · have hc' : ¬has a' c = true := fun hc' =>
        hne ((of_decide_eq_true hc').symm.trans (of_decide_eq_true hc))
      rw [List.eraseP_cons_of_pos hc, List.find?_cons_of_neg hc']
    · rw [List.eraseP_cons_of_neg hc, List.find?_cons, List.find?_cons, ih]

theorem retrieve_remove_of_ne (hne : a' ≠ a) :
    retrieve (remove t a).1 a' = retrieve t a' :=
  retrieve_update (find?_eraseP hne _)

end Hasher

namespace HeapRun

open HeapArea

variable {s s' : HeapRun} {mapped : Bool} {n p : ℕ}

/-- The pages of what is allocated are mapped. -/
def PagesMapped (h : HeapArea) : Prop :=
  h.mapped.length ≠ 0 → ∀ b, 0 < cover h.live b →
    PageBits.bit h.mapped (b / h.pageSize.bytes) = true

/-- **What every call keeps.** -/
structure Kept (mapped : Bool) (s : HeapRun) : Prop where
  inv : Inv s.heap
  defined : s.faulted = false
  bits : Bits mapped s.heap
  wanted : ∀ p o, Allocated s.heap p o → s.wanted p ≤ o
  pages : PagesMapped s.heap

theorem Kept.sound (hk : Kept mapped s) : Sound mapped s := by
  refine ⟨hk.defined, hk.inv.covered, hk.inv.list.sorted, fun c hc => (hk.inv.list.each c hc).1,
    hk.wanted, fun hmapped c hc b hb => ?_⟩
  have hlive : 0 < cover s.heap.live b := List.countP_pos_iff.2 ⟨c, hc, hb⟩
  have hin : b < s.heap.size := by
    by_contra hno
    have hcov := hk.inv.covered b
    rw [if_neg hno] at hcov
    omega
  -- there is a page, and hence a bit
  refine hk.pages (fun hzero => ?_) b hlive
  have hbits := hk.bits
  rw [Bits, hzero, hmapped, if_neg (by simp)] at hbits
  rw [hk.inv.size_eq, (by omega : s.heap.pages = 0), zero_mul] at hin
  exact not_lt_zero b hin

theorem Kept.alloc (hk : Kept mapped s) (hcan : n = 0 → CanMapNone s.heap) :
    Kept mapped (s.alloc n) := by
  rcases hk.inv.alloc_cases n with ⟨-, -, heq⟩ | ⟨ht, heq⟩
  · rw [HeapRun.alloc, heq]
    exact hk
  · obtain ⟨m, hm, hlen, hbit⟩ := hk.inv.alloc_spec hk.bits ht hcan
    have halloc := heq.trans hm
    rw [HeapRun.alloc, halloc]
    refine ⟨hk.inv.alloc halloc, hk.defined, hlen.trans hk.bits, fun p o hp => ?_,
      fun hne b hb => ?_⟩
    · obtain ⟨hnull, hentry⟩ := hp
      by_cases hpa : p = (Chunker.alloc n s.heap.freeList).2.1
      · subst hpa
        obtain rfl := Option.some.inj ((Hasher.retrieve_insert _ _ _).symm.trans hentry)
        show (if _ then _ else _ : ℕ → ℕ) _ ≤ _
        rw [if_neg hnull, update_self]
        exact ht.size_le
      · have hold := hk.wanted p o ⟨hnull, (Hasher.retrieve_insert_of_ne hpa).symm.trans hentry⟩
        show (if _ then _ else _ : ℕ → ℕ) _ ≤ _
        split
        · exact hold
        · rw [update_of_ne hpa]
          exact hold
    · obtain ⟨hkept, hnew⟩ := hbit fun hzero => hne (hlen.trans hzero)
      have hcover := cover_perm (Hasher.insert_perm s.heap.allocs
        (Chunker.alloc n s.heap.freeList).2.1 (Chunker.alloc n s.heap.freeList).2.2) b
      rw [cover_cons] at hcover
      by_cases hin : (Chunker.alloc n s.heap.freeList).2.1 ≤ b ∧
          b < (Chunker.alloc n s.heap.freeList).2.1 + (Chunker.alloc n s.heap.freeList).2.2
      · exact hnew b hin.1 hin.2
      · rw [if_neg hin, add_zero] at hcover
        refine hkept _ (hk.pages (fun hzero => hne (hlen.trans hzero)) b ?_)
        exact lt_of_lt_of_eq hb hcover

theorem wanted_update {h : HeapArea} {wanted : ℕ → ℕ}
    (hwanted : ∀ p o, Allocated h p o → wanted p ≤ o) {t : Hasher.Table}
    (ht : ∀ p', p' ≠ p → Hasher.retrieve t p' = Hasher.retrieve h.allocs p') (p' o : ℕ)
    (hp : p' ≠ nonzeroNull ∧ Hasher.retrieve t p' = some o) :
    update wanted p 0 p' ≤ o := by
  by_cases hpp : p' = p
  · rw [hpp, update_self]
    exact zero_le o
  · rw [update_of_ne hpp]
    exact hwanted p' o ⟨hp.1, (ht p' hpp).symm.trans hp.2⟩

theorem Kept.free (hk : Kept mapped s) (hs : HeapRun.step s (.free ptr) = some s') :
    Kept mapped s' := by
  obtain ⟨⟩ := hs
  by_cases hp : ptr.toNat = nonzeroNull
  · rw [HeapArea.free, if_pos hp]
    exact ⟨hk.inv, hk.defined, hk.bits, wanted_update hk.wanted fun _ _ => rfl, hk.pages⟩
  cases hr : Hasher.retrieve s.heap.allocs ptr.toNat with
  | none =>
    have hremove := Hasher.remove_of_none hr
    rw [hk.inv.free_none hp (by rw [hremove]), hremove]
    exact ⟨hk.inv, hk.defined, hk.bits, wanted_update hk.wanted fun _ _ => rfl, hk.pages⟩
  | some o =>
    obtain ⟨rest, hentries, hrest, hsize, -⟩ := Hasher.retrieve_spec hr
    have hlive : s.heap.live.Perm (⟨ptr.toNat, o⟩ :: rest) := hentries
    have hwanted := wanted_update hk.wanted fun p' hp' =>
      Hasher.retrieve_remove_of_ne (t := s.heap.allocs) (a := ptr.toNat) hp'
    by_cases ho : o = 0
    · subst ho
      rw [hk.inv.free_none hp hsize]
      refine ⟨hk.inv.removed hlive hrest, hk.defined, hk.bits, hwanted, fun hne b hb => ?_⟩
      refine hk.pages hne b ?_
      rw [cover_perm hlive, cover_empty]
      exact lt_of_lt_of_eq hb (cover_perm hrest b)
    · have hpos := Nat.pos_of_ne_zero ho
      have hend := hk.inv.end_le (hlive.mem_iff.2 List.mem_cons_self) hpos
      obtain ⟨hfreed, hinv⟩ := hk.inv.freedAll hlive hrest hpos
      have hregion := (hfreed.list.each _ hfreed.mem).2.1
      obtain ⟨m, hm, hlen, hbit⟩ := unmapFreed_spec (h := { s.heap with
        locked := true
        allocs := (Hasher.remove s.heap.allocs ptr.toNat).1
        freeList := (Chunker.free ptr.toNat o s.heap.freeList).1 }) hk.inv.size_eq hk.inv.size_lt
        hk.bits hpos hend hfreed.le hfreed.ge (lt_of_le_of_lt hregion hk.inv.size_lt)
      rw [hk.inv.free_some hp hr ho, hm]
      have hmapped := hinv.mapped m
      refine ⟨⟨hmapped.pages, hmapped.list, hmapped.quanta, hmapped.covered, rfl⟩, hk.defined,
        hlen.trans hk.bits, hwanted, fun hne b hb => ?_⟩
      have hne' : s.heap.mapped.length ≠ 0 := fun hzero => hne (hlen.trans hzero)
      have hrestb : 0 < cover rest b := lt_of_lt_of_eq hb (cover_perm hrest b)
      refine hbit hne' b ?_ (hk.pages hne' b ?_)
      · -- a byte of another block is not in the region that is free
        rintro ⟨hlo, hhi⟩
        have hcov : cover (Chunker.free ptr.toNat o s.heap.freeList).1 b +
            cover (Hasher.remove s.heap.allocs ptr.toNat).1.entries b =
          if b < s.heap.size then 1 else 0 := hinv.covered b
        have hfree : 0 < cover (Chunker.free ptr.toNat o s.heap.freeList).1 b :=
          List.countP_pos_iff.2 ⟨_, hfreed.mem, by simp [Chunk.covers, hlo, hhi]⟩
        rw [cover_perm hrest] at hcov
        split at hcov <;> omega
      · rw [cover_perm hlive, cover_cons]
        omega

theorem Kept.reset (hk : Kept mapped s) (hs : HeapRun.step s .reset = some s') :
    Kept mapped s' := by
  obtain ⟨⟩ := hs
  have hunmap : ∃ m, unmapRequired { s.heap with
      locked := true
      freeList := wholeFree s.heap.size
      allocs := fun _ => [] } 0 s.heap.size = some { s.heap with
        locked := true
        freeList := wholeFree s.heap.size
        allocs := fun _ => []
        mapped := m } ∧ m.length = s.heap.mapped.length := by
    by_cases hsize : s.heap.size = 0
    · refine ⟨s.heap.mapped, ?_, rfl⟩
      rw [unmapRequired, if_neg fun hno => hno.2 hsize]
    · have hlt := hk.inv.size_lt
      have hlast : wordSub (0 + s.heap.size) 1 = s.heap.size - 1 := by
        rw [zero_add]
        exact wordSub_of_le (by omega) hlt
      have hin := bit_of_lt hk.inv.size_eq hk.bits (by omega : s.heap.size - 1 < s.heap.size)
      rw [← hlast] at hin
      obtain ⟨m, hm, hlen, -⟩ := unmapRequired_spec (h := { s.heap with
        locked := true
        freeList := wholeFree s.heap.size
        allocs := fun _ => [] }) (by decide) (Nat.pos_of_ne_zero hsize) hin
      exact ⟨m, hm, hlen⟩
  obtain ⟨m, hm, hlen⟩ := hunmap
  have hreset : s.heap.reset = some { s.heap with
      locked := false
      freeList := wholeFree s.heap.size
      allocs := fun _ => []
      mapped := m } := by
    rw [HeapArea.reset, lock_eq hk.inv.unlocked, Option.bind_some]
    exact congrArg (Option.map unlock) hm
  rw [hreset]
  exact ⟨hk.inv.reset hreset, hk.defined, hlen.trans hk.bits,
    fun p o hp => absurd hp.2 (by simp [Hasher.retrieve]), fun hne b hb => absurd hb (by simp [live,
      entries_empty])⟩

theorem Kept.realloc {ptr newSize : BitVec 32} (hk : Kept mapped s)
    (hs : HeapRun.step s (.realloc ptr newSize) = some s')
    (hobs : Observes s (.realloc ptr newSize)) : Kept mapped s' := by
  by_cases hp : ptr.toNat = nonzeroNull
  · rw [HeapRun.step, if_pos hp] at hs
    obtain ⟨⟩ := hs
    exact hk.alloc (hobs.1 hp)
  rw [HeapRun.step, if_neg hp] at hs
  obtain ⟨r, hr, rfl⟩ := Option.map_eq_some_iff.1 hs
  cases hentry : Hasher.retrieve s.heap.allocs ptr.toNat with
  | none =>
    rw [hk.inv.realloc_none hp hentry] at hr
    exact absurd hr (by simp)
  | some o =>
    by_cases ho : o = 0
    · subst ho
      rw [hk.inv.realloc_empty _ hp hentry] at hr
      obtain ⟨⟩ := hr
      exact hk
    rcases lt_or_eq_of_le (hobs.2 o ⟨hp, hentry⟩) with hq | hq
    · rw [hk.inv.realloc_more hp hentry ho hq] at hr
      exact absurd hr (by simp)
    · rw [hk.inv.realloc_same hp hentry ho hq.symm] at hr
      obtain ⟨⟩ := hr
      refine ⟨hk.inv, hk.defined, hk.bits, fun p o' hp' => ?_, hk.pages⟩
      show (if _ then _ else _ : ℕ → ℕ) _ ≤ _
      rw [if_neg hp]
      by_cases hpp : p = ptr.toNat
      · subst hpp
        obtain ⟨⟩ := hentry.symm.trans hp'.2
        rw [update_self, hq]
        exact le_quantized newSize.isLt (by omega)
      · rw [update_of_ne hpp]
        exact hk.wanted p o' hp'

/-- **A call that does not go wrong** keeps it. -/
theorem Kept.step (hk : Kept mapped s) {a : Action} (hs : HeapRun.step s a = some s')
    (hobs : Observes s a) : Kept mapped s' := by
  cases a with
  | alloc size =>
    obtain ⟨⟩ := hs
    exact hk.alloc hobs
  | realloc ptr newSize => exact hk.realloc hs hobs
  | free ptr => exact hk.free hs
  | reset => exact hk.reset hs

theorem Kept.init (pageSize : PageSize) (size : BitVec 32) (mapped : Bool) (memory : ℕ → Byte) :
    Kept mapped (init pageSize size.toNat mapped memory) := by
  have hinv := Inv.init pageSize size mapped memory
  refine ⟨hinv, rfl, ?_, fun p o hp => absurd hp.2 (by simp [HeapRun.init, HeapArea.init,
    Hasher.retrieve]), fun hne b hb => absurd hb (by simp [HeapRun.init, HeapArea.init, live,
    entries_empty])⟩
  unfold Bits
  cases mapped with
  | true => rfl
  | false =>
    have hsize := hinv.size_eq
    refine List.length_replicate.trans ?_
    have hpages : (HeapArea.init pageSize size.toNat false memory).size / pageSize.bytes =
        (HeapArea.init pageSize size.toNat false memory).pages := by
      rw [hsize]
      exact Nat.mul_div_cancel _ pageSize.bytes_pos
    exact congrArg (fun n => (n + 31) / 32) hpages

/-- **The heap never hands out a byte twice**, whatever its size, in every run in which no block is
cut and no bytes are asked for only where none can be mapped. -/
theorem sound_of_observes (pageSize : PageSize) (size : BitVec 32) (mapped : Bool)
    (memory : ℕ → Byte) (actions : List Action)
    (h : AllSteps step Observes (init pageSize size.toNat mapped memory) actions) :
    AllStates step (Sound mapped) (init pageSize size.toNat mapped memory) actions := by
  apply AllStates.imp (fun _ hk => Kept.sound hk)
  exact AllSteps.states (fun _ _ _ hk hs hobs => hk.step hs hobs) actions _
    (Kept.init pageSize size mapped memory) h

/-- A heap of one page, which is not mapped. -/
def page : HeapRun := init .small (4096 : BitVec 32).toNat false fun _ => 0

/-- A block is allocated, keeps its quanta, and is given back. -/
theorem sound_page : AllStates step (Sound false) page
    [.alloc 64, .realloc 0 50, .alloc 0, .free 0, .reset] := by
  apply sound_of_observes
  refine .cons rfl (fun h => absurd h (by decide)) (.cons rfl ⟨fun h => absurd h (by decide), ?_⟩
    (.cons rfl (fun _ => Or.inr (Or.inl ⟨_, rfl, by decide⟩)) (.cons rfl trivial
      (.cons rfl trivial trivial))))
  rintro o ⟨-, ho⟩
  obtain ⟨⟩ := ho
  decide

/-- No bytes of a new heap take the bits of all pages up to the end of the address space. A block
that is cut has not the size that it had when `Realloc` fails. -/
theorem page_not_sound : ¬AllStates step (Sound false) page [.alloc 0] ∧
    ¬AllStates step (Sound false) page [.alloc 64, .realloc 0 32] := by
  constructor
  · intro h
    have hsound := h.last (rfl : run step page [.alloc 0] = some _)
    exact absurd hsound.defined (by decide)
  · intro h
    have hsound := h.last (rfl : run step page [.alloc 64, .realloc 0 32] = some _)
    exact absurd (hsound.wanted 0 32 ⟨by decide, rfl⟩) (by decide)

end HeapRun

end OpenBinder
