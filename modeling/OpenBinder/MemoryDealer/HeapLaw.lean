import OpenBinder.Lib.Buckets
import OpenBinder.MemoryDealer.ChunkerLaw

/-!
# The heap is parted

The free chunks and the blocks that are allocated cover every byte of the area once, whatever is
called.

* `Hasher.insert_perm`, `Hasher.retrieve_spec`: the entries of the table, up to order.
* `Inv.alloc_cases`, `Inv.realloc_same` and so on: what a call is, in a heap that is parted.
* `Inv.step`: it stays parted.
-/

namespace OpenBinder

open Lib List Option Nat

/-! ### The table -/

namespace Hasher

variable {t : Table} {a s : ℕ}

theorem hash_lt (address : ℕ) : hash address < 64 := by
  unfold hash
  rw [BitVec.toNat_and]
  exact lt_of_le_of_lt and_le_right (by decide)

theorem insert_perm (t : Table) (a s : ℕ) : (insert t a s).entries.Perm (⟨a, s⟩ :: t.entries) := by
  obtain ⟨rest, hrest⟩ := exists_perm_update t (hash_lt a)
  have hold := hrest (t (hash a))
  rw [Function.update_eq_self] at hold
  exact (hrest _).trans (hold.symm.cons _)

/-- **The entry of an address**: what is removed, and what is assigned to. -/
theorem retrieve_spec (h : retrieve t a = some s) :
    ∃ rest, t.entries.Perm (⟨a, s⟩ :: rest) ∧ (remove t a).1.entries.Perm rest ∧
      (remove t a).2 = s ∧ ∀ s', (assign t a s').entries.Perm (⟨a, s'⟩ :: rest) := by
  obtain ⟨c, hc, rfl⟩ := map_eq_some_iff.1 h
  obtain ⟨hca, x, y, hsplit, hx, herase⟩ := find?_split hc
  obtain rfl : c.start = a := of_decide_eq_true hca
  obtain ⟨rest, hrest⟩ := exists_perm_update t (hash_lt c.start)
  have hmiddle (d : Chunk) : (x ++ d :: y ++ rest).Perm (d :: (x ++ y ++ rest)) := by
    rw [append_assoc, cons_append]
    exact perm_middle.trans (by rw [append_assoc])
  refine ⟨x ++ y ++ rest, ?_, ?_, ?_, fun s' => ?_⟩
  · have hold := hrest (t (hash c.start))
    rw [Function.update_eq_self, hsplit] at hold
    exact hold.trans (hmiddle c)
  · rw [remove, herase]
    exact hrest _
  · rw [remove, h]
    rfl
  · have hreplace : (x ++ c :: y).replaceF (fun n =>
        if has c.start n then some ⟨n.start, s'⟩ else none) = x ++ ⟨c.start, s'⟩ :: y := by
      apply replaceF_split
      · intro d hd
        rw [hx d hd]
        rfl
      · rw [hca]
        rfl
    rw [assign, hsplit, hreplace]
    exact (hrest _).trans (hmiddle _)

theorem remove_of_none (h : retrieve t a = none) : remove t a = (t, 0) := by
  have hnone : ∀ c ∈ t (hash a), ¬has a c = true := fun c hc => by
    have := List.find?_eq_none.1 (map_eq_none_iff.1 h) c hc
    exact this
  rw [remove, h, eraseP_of_forall_not hnone, Function.update_eq_self]
  rfl

end Hasher

/-! ### The heap -/

theorem cover_perm {l m : List Chunk} (h : l.Perm m) (b : ℕ) : cover l b = cover m b := h.countP_eq _

theorem PageSize.dvd_bytes (pageSize : PageSize) : 32 ∣ pageSize.bytes :=
  pow_dvd_pow 2 pageSize.le_bits

namespace HeapArea

variable {h h' : HeapArea}

/-- **The heap is parted**: the free list and the blocks cover every byte once and nothing else, in
whole quanta. -/
structure Inv (h : HeapArea) : Prop where
  pages : h.pages * h.pageSize.bytes < 2 ^ 32
  list : FreeList h.freeList h.size
  quanta : ∀ c ∈ h.live, 0 < c.size → 32 ∣ c.start ∧ 32 ∣ c.size
  covered : ∀ b, cover h.freeList b + cover h.live b = if b < h.size then 1 else 0
  unlocked : h.locked = false

theorem Inv.size_eq (hi : Inv h) : h.size = h.pages * h.pageSize.bytes := word_of_lt hi.pages

theorem Inv.size_lt (hi : Inv h) : h.size < 2 ^ 32 := by
  rw [hi.size_eq]
  exact hi.pages

theorem Inv.dvd_size (hi : Inv h) : 32 ∣ h.size := by
  rw [hi.size_eq]
  exact Nat.dvd_mul_left_of_dvd h.pageSize.dvd_bytes _

theorem Inv.end_le (hi : Inv h) {c : Chunk} (hc : c ∈ h.live) (hpos : 0 < c.size) :
    c.start + c.size ≤ h.size := by
  have hcov := hi.covered (c.start + c.size - 1)
  have hone : 0 < cover h.live (c.start + c.size - 1) := by
    rw [cover, countP_pos_iff]
    refine ⟨c, hc, ?_⟩
    simp only [Chunk.covers, Bool.and_eq_true, decide_eq_true_eq]
    omega
  by_contra hno
  rw [if_neg (by omega)] at hcov
  omega

variable {rest : List Chunk} {n p o : ℕ}

theorem Inv.notMem_other (hi : Inv h) {c : Chunk} (hperm : h.live.Perm (c :: rest)) {b : ℕ}
    (hlo : c.start ≤ b) (hhi : b < c.start + c.size) :
    cover h.freeList b = 0 ∧ cover rest b = 0 := by
  have hcov := hi.covered b
  rw [cover_perm hperm, cover_cons, if_pos ⟨hlo, hhi⟩] at hcov
  split at hcov <;> omega

theorem lock_eq (hl : h.locked = false) : h.lock = some { h with locked := true } := by
  rw [lock, if_neg (by rw [hl]; simp)]

theorem unlock_lock (hl : h.locked = false) : unlock { h with locked := true } = h := by
  cases h
  subst hl
  rfl

theorem resizeTo_ne (h : 32 ∣ n) : resizeTo n ≠ n := by
  have hodd : resizeTo n = 0xFFFFFFA1 := by
    unfold resizeTo
    decide
  rw [hodd]
  rintro rfl
  exact absurd h (by decide)

theorem dvd_word (h : 32 ∣ n) : 32 ∣ word n := by
  unfold word
  omega

/-- **`Alloc`**: nothing is large enough, or a block is taken and entered. -/
theorem Inv.alloc_cases (hi : Inv h) (n : ℕ) :
    0 < n ∧ (∀ c ∈ h.freeList, c.size < n) ∧ h.alloc n = some (h, nonzeroNull) ∨
      Chunker.Taken n h.freeList (Chunker.alloc n h.freeList) h.size ∧
        h.alloc n = enter { h with locked := true, freeList := (Chunker.alloc n h.freeList).1 }
          (Chunker.alloc n h.freeList).2.1 (Chunker.alloc n h.freeList).2.2 := by
  have hlock := lock_eq hi.unlocked
  rcases Chunker.alloc_spec hi.size_lt hi.dvd_size n hi.list with ⟨hall, hpos, heq⟩ | htaken
  · refine .inl ⟨hpos, hall, ?_⟩
    rw [alloc, hlock, bind_some]
    rw [heq, if_pos hpos, if_pos]
    · exact congrArg (fun h => some (h, nonzeroNull)) (unlock_lock hi.unlocked)
    · apply resizeTo_ne
      apply dvd_word
      have hpage := h.pageSize.dvd_bytes
      have hsize : 32 ∣ size { h with locked := true } := hi.dvd_size
      refine Nat.dvd_add ?_ hsize
      split
      · exact dvd_word (Nat.dvd_mul_left_of_dvd hpage _)
      · next hmod => exact dvd_trans hpage (dvd_of_mod_eq_zero (not_not.1 hmod))
  · refine .inr ⟨htaken, ?_⟩
    rw [alloc, hlock, bind_some]
    rw [if_neg (not_lt.2 htaken.size_le)]

theorem mapRequired_eq {s : ℕ} (hm : h.mapRequired p s = some h') :
    ∃ mapped, h' = { h with mapped := mapped } := by
  unfold mapRequired at hm
  split at hm
  · obtain ⟨mapped, -, rfl⟩ := map_eq_some_iff.1 hm
    exact ⟨mapped, rfl⟩
  · obtain ⟨⟩ := hm
    exact ⟨h.mapped, rfl⟩

theorem unmapRequired_eq {s : ℕ} (hm : h.unmapRequired p s = some h') :
    ∃ mapped, h' = { h with mapped := mapped } := by
  unfold unmapRequired at hm
  split at hm
  · obtain ⟨mapped, -, rfl⟩ := map_eq_some_iff.1 hm
    exact ⟨mapped, rfl⟩
  · obtain ⟨⟩ := hm
    exact ⟨h.mapped, rfl⟩

theorem unmapFreed_eq {s : ℕ} {region : Chunk} (hm : h.unmapFreed p s region = some h') :
    ∃ mapped, h' = { h with mapped := mapped } := by
  unfold unmapFreed at hm
  dsimp only at hm
  split at hm
  · exact unmapRequired_eq hm
  · obtain ⟨⟩ := hm
    exact ⟨h.mapped, rfl⟩

theorem Inv.mapped (hi : Inv h) (mapped : List (BitVec 32)) : Inv { h with mapped := mapped } :=
  ⟨hi.pages, hi.list, hi.quanta, hi.covered, hi.unlocked⟩

theorem Inv.taken (hi : Inv h) {r : List Chunk × ℕ × ℕ} (ht : Chunker.Taken n h.freeList r h.size) :
    Inv { h with freeList := r.1, allocs := Hasher.insert h.allocs r.2.1 r.2.2 } := by
  have hperm := Hasher.insert_perm h.allocs r.2.1 r.2.2
  refine ⟨hi.pages, ht.list, fun c hc hpos => ?_, fun b => ?_, hi.unlocked⟩
  · rcases mem_cons.1 (hperm.mem_iff.1 hc) with rfl | hc
    · exact ⟨(ht.block hpos).1, ht.dvd⟩
    · exact hi.quanta c hc hpos
  · have hcov := ht.cover b
    have hold := hi.covered b
    show cover r.1 b + cover (Hasher.insert h.allocs r.2.1 r.2.2).entries b = _
    rw [cover_cons] at hcov
    rw [cover_perm hperm, cover_cons]
    rw [← hcov] at hold
    have hlive : cover h.live b = cover h.allocs.entries b := rfl
    rw [hlive] at hold
    rw [← add_assoc, add_right_comm]
    exact hold

theorem Inv.freed (hi : Inv h) {q : ℕ} {t : Hasher.Table} (hlive : h.live.Perm (⟨p, o⟩ :: rest))
    (hq : q < o) (hq32 : 32 ∣ q) (hcover : ∀ b, cover t.entries b = cover (⟨p, q⟩ :: rest) b)
    (hsub : ∀ c ∈ t.entries, c ∈ ⟨p, q⟩ :: rest) :
    Chunker.Freed (p + q) (o - q) h.freeList (Chunker.free (p + q) (o - q) h.freeList) h.size ∧
      Inv { h with freeList := (Chunker.free (p + q) (o - q) h.freeList).1, allocs := t } := by
  have hmem : (⟨p, o⟩ : Chunk) ∈ h.live := hlive.mem_iff.2 mem_cons_self
  have hend : p + o ≤ h.size := hi.end_le hmem (by dsimp only; omega)
  obtain ⟨hp32, ho32⟩ := hi.quanta _ hmem (by dsimp only; omega)
  dsimp only at hp32 ho32
  have hfreed := Chunker.free_spec hi.size_lt (by omega : 0 < o - q)
    (by omega : p + q + (o - q) ≤ h.size) (by omega) (by omega) hi.list fun b hlo hhi =>
      (hi.notMem_other hlive (by omega : p ≤ b) (by dsimp only; omega)).1
  refine ⟨hfreed, hi.pages, hfreed.list, fun c hc hpos => ?_, fun b => ?_, hi.unlocked⟩
  · rcases mem_cons.1 (hsub c hc) with rfl | hc
    · exact ⟨hp32, hq32⟩
    · exact hi.quanta c (hlive.mem_iff.2 (mem_cons_of_mem _ hc)) hpos
  · have hcov := hfreed.cover b
    have hold := hi.covered b
    rw [cover_cons] at hcov
    rw [cover_perm hlive, cover_cons] at hold
    show cover (Chunker.free (p + q) (o - q) h.freeList).1 b + cover t.entries b =
      if b < h.size then 1 else 0
    rw [hcover, cover_cons, hcov]
    dsimp only at hold ⊢
    rw [← hold]
    split_ifs <;> omega

theorem Inv.freedAll (hi : Inv h) {t : Hasher.Table} (hlive : h.live.Perm (⟨p, o⟩ :: rest))
    (ht : t.entries.Perm rest) (hpos : 0 < o) :
    Chunker.Freed p o h.freeList (Chunker.free p o h.freeList) h.size ∧
      Inv { h with freeList := (Chunker.free p o h.freeList).1, allocs := t } :=
  hi.freed hlive hpos (Nat.dvd_zero 32) (fun b => by rw [cover_perm ht, cover_empty])
    fun _ hc => mem_cons_of_mem _ (ht.mem_iff.1 hc)

theorem quantized_dvd (n : ℕ) (hn : n < 2 ^ 32) : 32 ∣ Chunker.quantized n := by
  rcases lt_or_ge (n + 31) (2 ^ 32) with h | h
  · rw [quantized_of_lt h]
    exact dvd_mul_left _ _
  · rw [quantized_of_ge h hn]
    exact Nat.dvd_zero 32

/-! ### Calls -/

theorem Inv.alloc (hi : Inv h) {n p : ℕ} (ha : h.alloc n = some (h', p)) : Inv h' := by
  rcases hi.alloc_cases n with ⟨-, -, heq⟩ | ⟨htaken, heq⟩
  · rw [heq] at ha
    obtain rfl := (Prod.mk.inj (Option.some.inj ha)).1
    exact hi
  · rw [heq] at ha
    obtain ⟨w, hw, hpair⟩ := map_eq_some_iff.1 ha
    obtain ⟨rfl, -⟩ := Prod.mk.inj hpair
    obtain ⟨mapped, rfl⟩ := mapRequired_eq hw
    have hinv := (hi.taken htaken).mapped mapped
    exact ⟨hinv.pages, hinv.list, hinv.quanta, hinv.covered, rfl⟩

theorem Inv.free_some (hi : Inv h) (hp : p ≠ nonzeroNull) (hr : Hasher.retrieve h.allocs p = some o)
    (hpos : o ≠ 0) :
    h.free p = (unmapFreed { h with
      locked := true
      allocs := (Hasher.remove h.allocs p).1
      freeList := (Chunker.free p o h.freeList).1 } p o (Chunker.free p o h.freeList).2).map unlock := by
  obtain ⟨rest, -, -, hsize, -⟩ := Hasher.retrieve_spec hr
  rw [HeapArea.free, if_neg hp, lock_eq hi.unlocked, bind_some]
  dsimp only
  rw [hsize, if_pos hpos]

theorem Inv.free_none (hi : Inv h) (hp : p ≠ nonzeroNull) (hr : (Hasher.remove h.allocs p).2 = 0) :
    h.free p = some { h with allocs := (Hasher.remove h.allocs p).1 } := by
  rw [HeapArea.free, if_neg hp, lock_eq hi.unlocked, bind_some]
  dsimp only
  rw [hr, if_neg (not_not.2 rfl)]
  have hl := hi.unlocked
  cases h
  subst hl
  rfl

theorem Inv.removed (hi : Inv h) {p : ℕ} {rest : List Chunk} {t : Hasher.Table}
    (hlive : h.live.Perm (⟨p, 0⟩ :: rest)) (ht : t.entries.Perm rest) :
    Inv { h with allocs := t } := by
  refine ⟨hi.pages, hi.list, fun c hc hpos => ?_, fun b => ?_, hi.unlocked⟩
  · exact hi.quanta c (hlive.mem_iff.2 (mem_cons_of_mem _ (ht.mem_iff.1 hc))) hpos
  · have hold := hi.covered b
    rw [cover_perm hlive, cover_empty] at hold
    show cover h.freeList b + cover t.entries b = _
    rw [cover_perm ht]
    exact hold

theorem Inv.free (hi : Inv h) (hf : h.free p = some h') : Inv h' := by
  by_cases hp : p = nonzeroNull
  · rw [HeapArea.free, if_pos hp] at hf
    obtain ⟨⟩ := hf
    exact hi
  cases hr : Hasher.retrieve h.allocs p with
  | none =>
    have hremove := Hasher.remove_of_none hr
    rw [hi.free_none hp (by rw [hremove]), hremove] at hf
    obtain ⟨⟩ := hf
    exact hi
  | some o =>
    obtain ⟨rest, hlive, hrest, hsize, -⟩ := Hasher.retrieve_spec hr
    by_cases ho : o = 0
    · subst ho
      rw [hi.free_none hp hsize] at hf
      obtain ⟨⟩ := hf
      exact hi.removed hlive hrest
    · rw [hi.free_some hp hr ho] at hf
      obtain ⟨w, hw, rfl⟩ := map_eq_some_iff.1 hf
      obtain ⟨mapped, rfl⟩ := unmapFreed_eq hw
      have hinv := (hi.freedAll hlive hrest (Nat.pos_of_ne_zero ho)).2
      exact ⟨hinv.pages, hinv.list, hinv.quanta, hinv.covered, rfl⟩

theorem Inv.realloc_empty (hi : Inv h) (n : ℕ) (hp : p ≠ nonzeroNull)
    (hr : Hasher.retrieve h.allocs p = some 0) : h.realloc p n = some (h, nonzeroNull) := by
  rw [realloc, if_neg hp, lock_eq hi.unlocked, bind_some]
  rw [hr, bind_some, if_neg (not_not.2 rfl), unlock_lock hi.unlocked]

section

variable (hi : Inv h) (hp : p ≠ nonzeroNull) (hr : Hasher.retrieve h.allocs p = some o)
include hi hp hr

theorem Inv.realloc_same (ho : o ≠ 0) (hq : Chunker.quantized n = o) :
    h.realloc p n = some (h, p) := by
  rw [realloc, if_neg hp, lock_eq hi.unlocked, bind_some]
  rw [hr, bind_some, if_pos ho, if_pos hq, unlock_lock hi.unlocked]

theorem Inv.realloc_less (hq : Chunker.quantized n < o) : h.realloc p n = some ({ h with
      freeList := (Chunker.free (p + Chunker.quantized n) (o - Chunker.quantized n) h.freeList).1
      allocs := Hasher.assign h.allocs p (Chunker.quantized n) }, nonzeroNull) := by
  obtain ⟨rest, hlive, -⟩ := Hasher.retrieve_spec hr
  have hend : p + o ≤ h.size := hi.end_le (hlive.mem_iff.2 mem_cons_self)
    (by dsimp only; omega)
  have hlt := hi.size_lt
  rw [realloc, if_neg hp, lock_eq hi.unlocked, bind_some]
  rw [hr, bind_some, if_pos (by omega), if_neg (by omega), if_pos hq, word_of_lt (by omega)]
  have hl := hi.unlocked
  cases h
  subst hl
  rfl

theorem Inv.realloc_more (ho : o ≠ 0) (hq : o < Chunker.quantized n) : h.realloc p n = none := by
  rw [realloc, if_neg hp, lock_eq hi.unlocked, bind_some]
  rw [hr, bind_some, if_pos ho, if_neg (by omega), if_neg (by omega)]
  rfl

end

theorem Inv.realloc_none (hi : Inv h) (hp : p ≠ nonzeroNull)
    (hr : Hasher.retrieve h.allocs p = none) : h.realloc p n = none := by
  rw [realloc, if_neg hp, lock_eq hi.unlocked, bind_some]
  rw [hr]
  rfl

theorem Inv.realloc (hi : Inv h) {r : ℕ} (hn : n < 2 ^ 32) (hs : h.realloc p n = some (h', r)) :
    Inv h' := by
  by_cases hp : p = nonzeroNull
  · rw [HeapArea.realloc, if_pos hp] at hs
    exact hi.alloc hs
  cases hr : Hasher.retrieve h.allocs p with
  | none =>
    rw [hi.realloc_none hp hr] at hs
    exact absurd hs (by simp)
  | some o =>
    by_cases ho : o = 0
    · subst ho
      rw [hi.realloc_empty n hp hr] at hs
      obtain rfl := (Prod.mk.inj (Option.some.inj hs)).1
      exact hi
    rcases lt_trichotomy (Chunker.quantized n) o with hq | hq | hq
    · rw [hi.realloc_less hp hr hq] at hs
      obtain rfl := (Prod.mk.inj (Option.some.inj hs)).1
      obtain ⟨rest, hlive, -, -, hassign⟩ := Hasher.retrieve_spec hr
      exact (hi.freed hlive hq (quantized_dvd n hn) (cover_perm (hassign _))
        fun c hc => (hassign _).mem_iff.1 hc).2
    · rw [hi.realloc_same hp hr ho hq] at hs
      obtain rfl := (Prod.mk.inj (Option.some.inj hs)).1
      exact hi
    · rw [hi.realloc_more hp hr ho hq] at hs
      exact absurd hs (by simp)

theorem wholeFree_spec {top : ℕ} (h32 : 32 ∣ top) :
    FreeList (wholeFree top) top ∧ ∀ b, cover (wholeFree top) b = if b < top then 1 else 0 := by
  by_cases hpos : 0 < top
  · have hfree : wholeFree top = [⟨0, top⟩] := by
      rw [wholeFree, if_pos hpos]
      rfl
    rw [hfree]
    refine ⟨freeList_cons.2 ⟨⟨hpos, ?_, Nat.dvd_zero 32, h32⟩,
      fun d hd => absurd hd not_mem_nil, freeList_nil⟩, fun b => ?_⟩
    · exact (zero_add top).le
    · rw [cover_cons]
      simp
  · rw [wholeFree, if_neg hpos]
    refine ⟨freeList_nil, fun b => ?_⟩
    rw [if_neg (by omega)]
    rfl

theorem entries_empty : Hasher.Table.entries (fun _ => []) = [] := rfl

theorem Inv.reset (hi : Inv h) (hs : h.reset = some h') : Inv h' := by
  rw [HeapArea.reset, lock_eq hi.unlocked, bind_some] at hs
  obtain ⟨w, hw, rfl⟩ := map_eq_some_iff.1 hs
  obtain ⟨mapped, rfl⟩ := unmapRequired_eq hw
  obtain ⟨hlist, hcover⟩ := wholeFree_spec hi.dvd_size
  refine ⟨hi.pages, hlist, fun c hc => absurd hc not_mem_nil, fun b => ?_, rfl⟩
  exact hcover b

/-- **A call keeps the heap parted.** -/
theorem Inv.step (hi : Inv h) {a : Action} (hs : HeapArea.step h a = some h') : Inv h' := by
  cases a with
  | alloc size =>
    obtain ⟨⟨w, p⟩, hw, rfl⟩ := map_eq_some_iff.1 hs
    exact hi.alloc hw
  | realloc ptr newSize =>
    obtain ⟨⟨w, p⟩, hw, rfl⟩ := map_eq_some_iff.1 hs
    exact hi.realloc newSize.isLt hw
  | free ptr => exact hi.free hs
  | reset => exact hi.reset hs

theorem Inv.init (pageSize : PageSize) (size : BitVec 32) (mapped : Bool) (memory : ℕ → Byte) :
    Inv (HeapArea.init pageSize size.toNat mapped memory) := by
  have hpages (n : ℕ) : word n / pageSize.bytes * pageSize.bytes < 2 ^ 32 :=
    lt_of_le_of_lt (div_mul_le_self _ _) (mod_lt _ (by decide))
  have hsize : (HeapArea.init pageSize size.toNat mapped memory).size =
      (HeapArea.init pageSize size.toNat mapped memory).pages * pageSize.bytes :=
    word_of_lt (hpages _)
  have h32 : 32 ∣ (HeapArea.init pageSize size.toNat mapped memory).size := by
    rw [hsize]
    exact Nat.dvd_mul_left_of_dvd pageSize.dvd_bytes _
  obtain ⟨hlist, hcover⟩ := wholeFree_spec h32
  exact ⟨hpages _, hlist, fun c hc => absurd hc not_mem_nil, hcover, rfl⟩

end HeapArea

end OpenBinder
