import Mathlib.Data.List.Nodup
import Mathlib.Data.List.Perm.Basic
import OpenBinder.Value.MapHeap

/-!
# The storage of a table holds a list of pairs

A table in use holds its list if the cells of its block are the keys and values of the list, one
after the other, and then raw. Blocks are apart from each other, those in the pool included, so that
a call on a table leaves the others alone.

* `create_spec`, `delete_spec`: a block of raw cells is taken from the pool or from memory, and goes
  back there.
* `addMapAt_spec`, `removeMapAt_spec`: a pair is put between pairs or taken from between them,
  within a block or on the way to another one; and `removeMapAt_none`, where that goes wrong.
* `removeMapAt_refines`: the table without its storage, `BValueMap.removeMapAt`, does the same.
* `refines_iff`: **in a run the tables hold their lists** as long as none is compacted around a pair
  that is not the first, and only so long.
-/

namespace OpenBinder

open Lib Function List Nat Store
open Option hiding mem_map_of_mem

namespace MapHeap

variable {h h' : MapHeap} {map : MapBlock} {used : List ℕ} {l a b : List SValue.Pair}

/-! ### Cells -/

@[simp] theorem pairCells_cons (p : SValue.Pair) (l : List SValue.Pair) :
    pairCells (p :: l) = p.1 :: p.2 :: pairCells l := rfl

@[simp] theorem pairCells_append (a b : List SValue.Pair) :
    pairCells (a ++ b) = pairCells a ++ pairCells b := flatMap_append

@[simp] theorem pairCells_length (l : List SValue.Pair) : (pairCells l).length = l.length * 2 := by
  induction l with
  | nil => rfl
  | cons p l ih =>
    rw [pairCells_cons, length_cons, length_cons, ih, length_cons]
    omega

/-! ### The pool -/

variable {n i index : ℕ} {p : SValue.Pair} {more : MapBlock} {s : State}

theorem poolToSize_sizeToPool (hn : n ≤ maxPoolSize) :
    poolToSize (sizeToPool n) = BValueMap.capacity n := by
  unfold sizeToPool BValueMap.capacity
  split
  · rfl
  · split
    · rfl
    · rw [if_pos (show n ≤ 6 from hn)]
      rfl

theorem capacity_poolToSize (p : Fin 3) : BValueMap.capacity (poolToSize p) = poolToSize p := by
  revert p
  decide

theorem capacity_capacity (n : ℕ) :
    BValueMap.capacity (BValueMap.capacity n) = BValueMap.capacity n := by
  by_cases hn : n ≤ maxPoolSize
  · rw [← poolToSize_sizeToPool hn, capacity_poolToSize]
  · have hlarge : BValueMap.capacity n = n := by
      unfold maxPoolSize at hn
      unfold BValueMap.capacity
      rw [if_neg (by omega), if_neg (by omega), if_neg (by omega)]
    rw [hlarge, hlarge]

theorem mem_pooled {pools : Fin 3 → List MapBlock} {p : Fin 3} (hm : map ∈ pools p) :
    map.block ∈ pooled pools := by
  apply mem_map_of_mem
  match p, hm with
  | 0, hm => exact mem_append_left _ hm
  | 1, hm => exact mem_append_right _ (mem_append_left _ hm)
  | 2, hm => exact mem_append_right _ (mem_append_right _ hm)

theorem pooled_push (pools : Fin 3 → List MapBlock) (p : Fin 3) (map : MapBlock)
    (rest : List MapBlock) : (pooled (update pools p (map :: rest))).Perm
      (map.block :: pooled (update pools p rest)) := by
  have hcons : ∀ l, map.block :: List.map MapBlock.block l = List.map MapBlock.block (map :: l) :=
    fun _ => rfl
  unfold pooled
  rw [hcons]
  apply List.Perm.map
  match p with
  | 0 => exact List.Perm.refl _
  | 1 => exact perm_middle
  | 2 =>
    show (pools 0 ++ (pools 1 ++ map :: rest)).Perm (map :: (pools 0 ++ (pools 1 ++ rest)))
    rw [← append_assoc, ← append_assoc]
    exact perm_middle

/-- **Blocks are apart**, in use and in the pool, where their cells are raw. -/
structure Ok (h : MapHeap) (used : List ℕ) : Prop where
  nodup : (used ++ pooled h.pools).Nodup
  below : ∀ c ∈ used ++ pooled h.pools, c < h.calls
  pool : ∀ p, ∀ map ∈ h.pools p, h.mem map.block = some (raw (map.avail * 2)) ∧
    map.avail = poolToSize p ∧ map.editIndex = none

theorem Ok.perm {used' : List ℕ} (ok : h.Ok used) (hp : used.Perm used') : h.Ok used' where
  nodup := (hp.append_right _).nodup_iff.1 ok.nodup
  below := fun c hc => ok.below c ((hp.append_right _).mem_iff.2 hc)
  pool := ok.pool

theorem Ok.ne_pooled {c : ℕ} (ok : h.Ok used) (hc : c ∈ used) {p : Fin 3} (hm : map ∈ h.pools p) :
    map.block ≠ c := by
  rintro rfl
  exact (nodup_append.1 ok.nodup).2.2 _ hc _ (mem_pooled hm) rfl

theorem Ok.write {mem : Store ℕ SValue} (ok : h.Ok used)
    (hmem : ∀ c, c ∉ used → mem c = h.mem c) : ({ h with mem := mem } : MapHeap).Ok used where
  nodup := ok.nodup
  below := ok.below
  pool := by
    intro p map hm
    have hne : map.block ∉ used := fun hc => ok.ne_pooled hc hm rfl
    dsimp only
    rw [hmem _ hne]
    exact ok.pool p map hm

/-- **A block** that `Create` has made. -/
structure Made (h h' : MapHeap) (used : List ℕ) (n : ℕ) (map : MapBlock) : Prop where
  ok : h'.Ok (map.block :: used)
  avail : map.avail = BValueMap.capacity n
  size : map.size = 0
  dataSize : map.dataSize = none
  editIndex : map.editIndex = none
  cells : h'.mem map.block = some (raw (map.avail * 2))
  same : ∀ c ∈ used, h'.mem c = h.mem c

theorem malloc_spec (ok : h.Ok used) (hn : BValueMap.capacity n = n) :
    (∃ h', h.malloc n = (none, h') ∧ h'.Ok used ∧ h'.mem = h.mem) ∨
      ∃ map h', h.malloc n = (some map, h') ∧ Made h h' used n map := by
  have hne : ∀ c ∈ used ++ pooled h.pools, c ≠ h.calls := fun c hc => (ok.below c hc).ne
  unfold malloc
  split
  · refine .inr ⟨_, _, rfl, ⟨?_, ?_, ?_⟩, hn.symm, rfl, rfl, rfl, put_self _, ?_⟩
    · exact nodup_cons.2 ⟨fun hc => hne _ hc rfl, ok.nodup⟩
    · intro c hc
      rcases mem_cons.1 hc with rfl | hc
      · exact lt_succ_self _
      · exact lt_succ_of_lt (ok.below c hc)
    · intro p map hm
      have hmap := hne map.block (mem_append_right _ (mem_pooled hm))
      dsimp only
      rw [put_ne _ hmap]
      exact ok.pool p map hm
    · exact fun c hc => put_ne _ (hne c (mem_append_left _ hc))
  · exact .inl ⟨_, rfl,
      ⟨ok.nodup, fun c hc => lt_succ_of_lt (ok.below c hc), ok.pool⟩, rfl⟩

/-- **`Create` gives a block of raw cells**, with the capacity of its pool, or no block. -/
theorem create_spec (ok : h.Ok used) (n : ℕ) :
    (∃ h', h.create n = (none, h') ∧ h'.Ok used ∧ h'.mem = h.mem) ∨
      ∃ map h', h.create n = (some map, h') ∧ Made h h' used n map := by
  unfold create
  split
  · rename_i hn
    split
    · rename_i map rest hpool
      refine .inr ⟨_, _, rfl, ?_⟩
      obtain ⟨hcells, havail, hedit⟩ := ok.pool _ map (hpool ▸ mem_cons_self)
      have hperm : (pooled h.pools).Perm
          (map.block :: pooled (update h.pools (sizeToPool n) rest)) := by
        have := pooled_push h.pools (sizeToPool n) map rest
        rwa [← hpool, update_eq_self] at this
      have hall : (used ++ pooled h.pools).Perm
          (map.block :: used ++ pooled (update h.pools (sizeToPool n) rest)) :=
        (hperm.append_left used).trans perm_middle
      refine ⟨⟨hall.nodup_iff.1 ok.nodup, fun c hc => ok.below c (hall.mem_iff.2 hc), ?_⟩,
        havail.trans (poolToSize_sizeToPool hn), rfl, rfl, hedit, hcells, fun _ _ => rfl⟩
      intro p map' hm
      refine ok.pool p map' ?_
      dsimp only at hm
      by_cases hp : p = sizeToPool n
      · subst hp
        rw [update_self] at hm
        rw [hpool]
        exact mem_cons_of_mem _ hm
      · rwa [update_of_ne hp] at hm
    · rw [poolToSize_sizeToPool hn]
      rcases malloc_spec ok (capacity_capacity n) with hnone | ⟨map, h', hmap, hmade⟩
      · exact .inl hnone
      · exact .inr ⟨map, h', hmap,
          { hmade with avail := hmade.avail.trans (capacity_capacity n) }⟩
  · rename_i hn
    unfold maxPoolSize at hn
    apply malloc_spec ok
    unfold BValueMap.capacity
    rw [if_neg (by omega), if_neg (by omega), if_neg (by omega)]

/-- **`Delete` gives a block back**, to the pool or to memory. -/
theorem delete_spec (ok : h.Ok (map.block :: used)) (hedit : map.editIndex = none)
    (hcap : BValueMap.capacity map.avail = map.avail) {xs : List SValue} {r : ℕ}
    (hcells : h.mem map.block = some (filled xs ++ raw r)) (hsize : xs.length = map.size * 2)
    (hr : xs.length + r = map.avail * 2) :
    ∃ h', h.delete map = some h' ∧ h'.Ok used ∧ ∀ c ∈ used, h'.mem c = h.mem c := by
  have hraw : h.mem.destroyAll map.block 0 (map.size * 2) =
      some (h.mem.put map.block (raw (map.avail * 2))) := by
    have hall := @Store.destroyAll_eq _ _ _ h.mem map.block [] (raw r) 0 _ xs hcells rfl hsize.symm
    rw [hall, ← hr, raw_add]
    rfl
  have hne : ∀ c ∈ used, c ≠ map.block := by
    rintro c hc rfl
    exact (nodup_cons.1 ok.nodup).1 (mem_append_left _ hc)
  unfold delete
  rw [hraw]
  dsimp only [bind_eq_bind, bind_some]
  split
  · rename_i hsmall
    refine ⟨_, rfl, ⟨?_, ?_, ?_⟩, fun c hc => put_ne _ (hne c hc)⟩
    all_goals
      have hperm := pooled_push h.pools (sizeToPool map.avail) map (h.pools (sizeToPool map.avail))
      rw [update_eq_self] at hperm
      have hall := (hperm.append_left used).trans perm_middle
    · exact hall.nodup_iff.2 ok.nodup
    · exact fun c hc => ok.below c (hall.mem_iff.1 hc)
    · intro p map' hm
      have hcase : map' = map ∧ p = sizeToPool map.avail ∨ map' ∈ h.pools p := by
        dsimp only at hm
        by_cases hp : p = sizeToPool map.avail
        · subst hp
          rw [update_self] at hm
          rcases mem_cons.1 hm with hm | hm
          · exact .inl ⟨hm, rfl⟩
          · exact .inr hm
        · rw [update_of_ne hp] at hm
          exact .inr hm
      rcases hcase with ⟨rfl, rfl⟩ | hm
      · exact ⟨put_self _, hcap.symm.trans (poolToSize_sizeToPool hsmall.1).symm, hedit⟩
      · dsimp only
        rw [put_ne _ (ok.ne_pooled mem_cons_self hm)]
        exact ok.pool p map' hm
  · rw [free_eq (n := map.avail * 2) (put_self _)]
    refine ⟨_, rfl, ⟨?_, ?_, ?_⟩, ?_⟩
    · exact (nodup_cons.1 ok.nodup).2
    · exact fun c hc => ok.below c (mem_cons_of_mem _ hc)
    · intro p map' hm
      have hmap := ok.ne_pooled mem_cons_self hm
      dsimp only
      rw [update_of_ne hmap, put_ne _ hmap]
      exact ok.pool p map' hm
    · intro c hc
      dsimp only
      rw [update_of_ne (hne c hc), put_ne _ (hne c hc)]

/-! ### Pairs in a block -/

/-- **A table holds a list of pairs.** -/
structure Holds (h : MapHeap) (map : MapBlock) (l : List SValue.Pair) : Prop where
  size : map.size = l.length
  le_avail : map.size ≤ map.avail
  cells : h.mem map.block = some (filled (pairCells l) ++ raw ((map.avail - map.size) * 2))
  room : BValueMap.capacity map.avail = map.avail

theorem Holds.congr (hl : h.Holds map l) (hmem : h'.mem map.block = h.mem map.block) :
    h'.Holds map l :=
  ⟨hl.size, hl.le_avail, hmem.trans hl.cells, hl.room⟩

/-- **What a call leaves**: a table that holds a list, apart from the others. -/
structure Leaves (h : MapHeap) (used : List ℕ) (h' : MapHeap) (map : MapBlock)
    (l : List SValue.Pair) : Prop where
  ok : h'.Ok (map.block :: used)
  holds : h'.Holds map l
  same : ∀ c ∈ used, h'.mem c = h.mem c

theorem Made.holds (m : Made h h' used n map) : h'.Holds map [] where
  size := m.size
  le_avail := by
    rw [m.size]
    exact zero_le _
  cells := by
    rw [m.size, m.cells]
    rfl
  room := by rw [m.avail, capacity_capacity]

theorem Holds.mapAt_eq (hl : h.Holds map l) (i : ℕ) : h.mapAt map i = l[i]? := by
  unfold mapAt
  by_cases hi : i < l.length
  · obtain ⟨a, b, p, rfl, rfl⟩ : ∃ a b p, l = a ++ p :: b ∧ i = a.length :=
      ⟨l.take i, l.drop (i + 1), l[i], by rw [getElem_cons_drop, take_append_drop],
        by rw [length_take]; omega⟩
    have hkey : h.mem.read map.block (a.length * 2) = some p.1 := by
      have := read_eq (m := h.mem) (p := map.block) (a := filled (pairCells a)) (x := p.1)
        (b := some p.2 :: (filled (pairCells b) ++ raw ((map.avail - map.size) * 2)))
        (by rw [hl.cells]; simp [filled_cons])
      simpa using this
    have hvalue : h.mem.read map.block (a.length * 2 + 1) = some p.2 := by
      have := read_eq (m := h.mem) (p := map.block) (x := p.2)
        (a := filled (pairCells a) ++ [some p.1])
        (b := filled (pairCells b) ++ raw ((map.avail - map.size) * 2))
        (by rw [hl.cells]; simp [filled_cons])
      simpa using this
    rw [hkey, hvalue]
    simp
  · have hnone : h.mem.read map.block (i * 2) = none := by
      unfold Store.read
      rw [hl.cells]
      dsimp only [bind_eq_bind, bind_some]
      rw [List.getElem?_append_right (by simp; omega)]
      unfold raw
      rw [List.getElem?_replicate]
      split <;> rfl
    rw [hnone, List.getElem?_eq_none (by omega)]
    rfl

theorem Holds.getIndexOf_eq (hl : h.Holds map l) (k v : SValue) :
    h.getIndexOf map k v = BValueMap.getIndexOf ⟨0, none, l⟩ k v := by
  unfold getIndexOf BValueMap.getIndexOf
  rw [hl.size]
  simp only [hl.mapAt_eq]
  rfl

theorem moveBefore_guard (m : Store ℕ SValue) (p q i n : ℕ) :
    (if 0 < n then m.moveBefore p q i i (n * 2) else some m) = m.moveBefore p q i i (n * 2) := by
  split
  · rfl
  · rw [show n = 0 by omega]
    rfl

section Move

variable {m : Store ℕ SValue} {p q : ℕ} {xs ys : List SValue}

theorem move_apart (hpq : p ≠ q) {i k n : ℕ} (hp : m p = some (raw n))
    (hq : m q = some (filled (xs ++ ys))) (hi : xs.length = i * 2) (hk : ys.length = k * 2)
    (hn : xs.length + 2 + ys.length ≤ n) :
    ∃ m', ((if 0 < i then m.moveBefore p q 0 0 (i * 2) else some m).bind fun m =>
        m.moveBefore p q ((i + 1) * 2) (i * 2) (k * 2)) = some m' ∧
      m' p = some (filled xs ++ none :: none ::
        (filled ys ++ raw (n - (xs.length + 2 + ys.length)))) ∧
      m' q = some (raw (xs.length + ys.length)) ∧ ∀ c, c ≠ p → c ≠ q → m' c = m c := by
  obtain ⟨r, rfl⟩ := Nat.exists_eq_add_of_le hn
  have hfirst : m.moveBefore p q 0 0 (i * 2) = some
      ((m.put p ([] ++ (filled xs ++ raw (2 + ys.length + r)))).put q
        ([] ++ (raw xs.length ++ filled ys))) := by
    apply moveBefore_other hpq
    · rw [hp, add_assoc, add_assoc, raw_add, add_assoc]
      rfl
    · rw [hq, filled_append]
      rfl
    · rfl
    · rfl
    · exact hi.symm
  rw [moveBefore_guard, hfirst, bind_some]
  have hsecond := moveBefore_other (P := ℕ) (α := SValue) (a := filled xs ++ raw 2)
    (b := raw r) (c := raw xs.length) (d := []) (i := (i + 1) * 2) (j := i * 2)
    (n := k * 2) (m := (m.put p ([] ++ (filled xs ++ raw (2 + ys.length + r)))).put q
      ([] ++ (raw xs.length ++ filled ys))) hpq
    (by
      rw [put_ne _ hpq, put_self, raw_add, raw_add]
      simp)
    (by
      rw [put_self]
      simp)
    (by
      simp [hi]
      omega)
    (by
      rw [raw_length, hi])
    hk.symm
  refine ⟨_, hsecond, ?_, ?_, fun c hcp hcq => ?_⟩
  · rw [put_ne _ hpq, put_self, Nat.add_sub_cancel_left, append_assoc]
    rfl
  · rw [put_self, append_nil, raw_add]
  · rw [put_ne _ hcq, put_ne _ hcp, put_ne _ hcq, put_ne _ hcp]

end Move

theorem giveBack_spec {mem : Store ℕ SValue} (ok : h.Ok (more.block :: map.block :: used))
    (hedit : map.editIndex = none) (hroom : BValueMap.capacity map.avail = map.avail)
    (hold : mem map.block = some (raw (map.avail * 2)))
    (hsame : ∀ c, c ≠ more.block → c ≠ map.block → mem c = h.mem c) :
    ∃ h', ({ h with mem := mem } : MapHeap).delete { map with size := 0 } = some h' ∧
      h'.Ok (more.block :: used) ∧ h'.mem more.block = mem more.block ∧
      ∀ c ∈ used, h'.mem c = h.mem c := by
  have hwritten : ({ h with mem := mem } : MapHeap).Ok (more.block :: map.block :: used) := by
    refine ok.write fun c hc => hsame c ?_ ?_
    · rintro rfl
      exact hc mem_cons_self
    · rintro rfl
      exact hc (mem_cons_of_mem _ mem_cons_self)
  obtain ⟨h', hdelete, ok', hkept⟩ := @delete_spec { h with mem := mem } { map with size := 0 }
    (more.block :: used) (hwritten.perm (List.Perm.swap _ _ _)) hedit hroom [] (map.avail * 2) hold
    (by simp) (by simp)
  refine ⟨h', hdelete, ok', hkept _ mem_cons_self, fun c hc => ?_⟩
  rw [hkept c (mem_cons_of_mem _ hc)]
  have hnodup := (nodup_append.1 ok.nodup).1
  apply hsame
  · rintro rfl
    exact (nodup_cons.1 hnodup).1 (mem_cons_of_mem _ hc)
  · rintro rfl
    exact (nodup_cons.1 (nodup_cons.1 hnodup).2).1 hc

/-! ### Adding a pair -/

theorem constructPair_spec {key value : SValue} {r : ℕ} (ok : h.Ok (more.block :: used))
    (hcells : h.mem more.block = some (filled (pairCells a) ++ none :: none ::
      (filled (pairCells b) ++ raw r)))
    (hsize : n = (a ++ b).length) (hr : n * 2 + 2 + r = more.avail * 2)
    (hroom : BValueMap.capacity more.avail = more.avail) :
    ∃ h', h.constructPair more a.length key value n =
        some (h', { more with size := n + 1 }, .index a.length) ∧
      Leaves h used h' { more with size := n + 1 } (a ++ (key, value) :: b) := by
  have hne : ∀ c ∈ used, c ≠ more.block := by
    rintro c hc rfl
    exact (nodup_cons.1 ok.nodup).1 (mem_append_left _ hc)
  have hkey : h.mem.construct more.block (a.length * 2) key = some (h.mem.put more.block
      (filled (pairCells a) ++ some key :: none :: (filled (pairCells b) ++ raw r))) := by
    have := construct_eq (x := key) hcells
    rwa [filled_length, pairCells_length] at this
  have hvalue : (h.mem.put more.block (filled (pairCells a) ++ some key :: none ::
        (filled (pairCells b) ++ raw r))).construct more.block (a.length * 2 + 1) value =
      some (h.mem.put more.block ((filled (pairCells a) ++ [some key]) ++ some value ::
        (filled (pairCells b) ++ raw r))) := by
    have := construct_eq (P := ℕ) (x := value) (p := more.block)
      (a := filled (pairCells a) ++ [some key]) (b := filled (pairCells b) ++ raw r)
      (m := h.mem.put more.block (filled (pairCells a) ++ some key :: none ::
        (filled (pairCells b) ++ raw r)))
      (by
        rw [put_self]
        simp)
    rwa [length_append, filled_length, pairCells_length, put_put] at this
  unfold constructPair
  rw [hkey]
  dsimp only [bind_eq_bind, bind_some]
  rw [hvalue]
  refine ⟨_, rfl, ?_, ⟨?_, ?_, ?_, hroom⟩, fun c hc => put_ne _ (hne c hc)⟩
  · refine ok.write fun c hc => put_ne _ ?_
    rintro rfl
    exact hc mem_cons_self
  · rw [hsize]
    simp
    omega
  · dsimp only
    omega
  · have hrest : r = (more.avail - (n + 1)) * 2 := by omega
    dsimp only
    rw [put_self, hrest]
    simp [filled_cons]

/-- **A pair is added** at an index, unless the block is full and there is no memory. -/
theorem addMapAt_spec (ok : h.Ok (map.block :: used)) (hl : h.Holds map (a ++ b))
    (hedit : map.editIndex = none) (key value : SValue) :
    (∃ h', h.addMapAt map a.length key value = some (h', map, .noMemory) ∧
        map.avail ≤ map.size ∧ Leaves h used h' map (a ++ b)) ∨
      ∃ h' map', h.addMapAt map a.length key value = some (h', map', .index a.length) ∧
        Leaves h used h' map' (a ++ (key, value) :: b) ∧ map'.editIndex = none := by
  have hsize := hl.size
  have havail := hl.le_avail
  rw [length_append] at hsize
  unfold addMapAt
  dsimp only
  split
  · -- the pairs move into the new digs
    rename_i hfull
    have hcells : h.mem map.block = some (filled (pairCells a ++ pairCells b)) := by
      rw [hl.cells, show map.avail - map.size = 0 by omega, pairCells_append]
      simp
    rcases create_spec ok ((map.size + 1) * 3 / 2) with
      ⟨h₁, hcreate, ok₁, hmem⟩ | ⟨more, h₁, hcreate, made⟩
    · rw [hcreate]
      exact .inl ⟨_, rfl, hfull, ok₁, hl.congr (by rw [hmem]), fun c _ => by rw [hmem]⟩
    · right
      rw [hcreate]
      dsimp only
      have hpq : more.block ≠ map.block := by
        have := (nodup_cons.1 made.ok.nodup).1
        intro he
        exact this (mem_append_left _ (by rw [he]; exact mem_cons_self))
      have hnew : map.size + 1 ≤ more.avail := by
        rw [made.avail]
        exact le_trans (by omega) (BValueMap.le_capacity _)
      obtain ⟨m', hmove, hmore, hold, hsame⟩ := @move_apart h₁.mem more.block map.block
        (pairCells a) (pairCells b) hpq a.length b.length _ made.cells
        ((made.same _ mem_cons_self).trans hcells) (pairCells_length a) (pairCells_length b)
        (by rw [pairCells_length, pairCells_length]; omega)
      have hmoved : (if a.length ≥ map.size then
            h₁.mem.moveBefore more.block map.block 0 0 (map.size * 2)
          else
            (if 0 < a.length then h₁.mem.moveBefore more.block map.block 0 0 (a.length * 2)
              else some h₁.mem).bind fun mem =>
            mem.moveBefore more.block map.block ((a.length + 1) * 2) (a.length * 2)
              ((map.size - a.length) * 2)) = some m' := by
        rw [← hmove]
        split
        · -- there is nothing after the index
          have hb : b.length = 0 := by omega
          rw [moveBefore_guard, hb, show map.size = a.length by omega]
          exact (bind_fun_some _).symm
        · rw [show map.size - a.length = b.length by omega]
      rw [hmoved]
      dsimp only [bind_eq_bind, bind_some]
      obtain ⟨h₂, hdelete, ok₂, hnew₂, hkept⟩ := giveBack_spec made.ok hedit hl.room
        (by rw [hold, pairCells_length, pairCells_length, ← add_mul]; congr 3; omega) hsame
      rw [hdelete]
      rw [hmore, pairCells_length, pairCells_length] at hnew₂
      obtain ⟨h₃, hdone, left⟩ :=
        constructPair_spec ok₂ hnew₂ hl.size (by omega) made.holds.room
      refine ⟨h₃, _, hdone, ⟨left.ok, left.holds, fun c hc => ?_⟩, made.editIndex⟩
      rw [left.same c hc, hkept c hc, made.same c (mem_cons_of_mem _ hc)]
  · -- the pairs after the index move up
    right
    obtain ⟨r, hr⟩ : ∃ r, map.avail - map.size = r + 1 := ⟨map.avail - map.size - 1, by omega⟩
    have hcells : h.mem map.block = some (filled (pairCells a) ++ (filled (pairCells b) ++
        (raw 2 ++ raw (r * 2)))) := by
      rw [hl.cells, hr, pairCells_append, filled_append, append_assoc, ← raw_add]
      congr 4
      omega
    have hmoved : (if a.length < map.size then
          h.mem.moveAfter map.block ((a.length + 1) * 2) map.block (a.length * 2)
            ((map.size - a.length) * 2)
        else some h.mem) = some (h.mem.put map.block (filled (pairCells a) ++ (raw 2 ++
          (filled (pairCells b) ++ raw (r * 2))))) := by
      split
      · apply moveAfter_same (by decide) hcells
        · rw [filled_length, pairCells_length]
          omega
        · rw [filled_length, pairCells_length]
        · rw [pairCells_length]
          omega
      · have hb : b = [] := eq_nil_of_length_eq_zero (by omega)
        subst hb
        exact congrArg some (put_eq hcells).symm
    rw [hmoved]
    have hne : ∀ c ∈ used, c ≠ map.block := by
      rintro c hc rfl
      exact (nodup_cons.1 ok.nodup).1 (mem_append_left _ hc)
    have ok₁ := @Ok.write h _ (h.mem.put map.block
        (filled (pairCells a) ++ (raw 2 ++ (filled (pairCells b) ++ raw (r * 2))))) ok
      fun c hc => put_ne _ (by rintro rfl; exact hc mem_cons_self)
    obtain ⟨h₂, hdone, left⟩ :=
      constructPair_spec ok₁ (put_self _) hl.size (by omega) hl.room
    refine ⟨h₂, _, hdone, ⟨left.ok, left.holds, fun c hc => ?_⟩, hedit⟩
    rw [left.same c hc]
    exact put_ne _ (hne c hc)

/-! ### Removing a pair -/

theorem create_write (h : MapHeap) (mem : Store ℕ SValue) (n : ℕ) :
    (({ h with mem := mem } : MapHeap).create n).1 = (h.create n).1 := by
  unfold create malloc
  split
  · dsimp only
    split
    · rfl
    · split <;> rfl
  · split <;> rfl

theorem moveBefore_raw {m : Store ℕ SValue} {p q j : ℕ} (hread : m.read q j = none) (hn : 0 < n) :
    m.moveBefore p q i j n = none := by
  obtain ⟨k, rfl⟩ : ∃ k, n = k + 1 := ⟨n - 1, by omega⟩
  unfold Store.moveBefore Store.move
  rw [hread]
  rfl

theorem destroyPair_eq (hl : h.Holds map (a ++ p :: b)) :
    h.mem.destroyAll map.block (a.length * 2) 2 = some (h.mem.put map.block
      (filled (pairCells a) ++ (raw 2 ++ (filled (pairCells b) ++
        raw ((map.avail - map.size) * 2))))) := by
  have hcells : h.mem map.block = some (filled (pairCells a) ++ (filled [p.1, p.2] ++
      (filled (pairCells b) ++ raw ((map.avail - map.size) * 2)))) := by
    rw [hl.cells]
    simp [filled_cons]
  exact destroyAll_eq hcells (by simp) rfl

theorem closeGap_spec {r : ℕ} (ok : h.Ok (map.block :: used))
    (hcells : h.mem map.block = some (filled (pairCells a) ++ (raw 2 ++ (filled (pairCells b) ++
      raw r)))) (hn : n = (a ++ b).length) (hr : n * 2 + 2 + r = map.avail * 2)
    (hroom : BValueMap.capacity map.avail = map.avail) :
    ∃ h', h.closeGap map a.length n = some (h', { map with size := n, dataSize := none }) ∧
      Leaves h used h' { map with size := n, dataSize := none } (a ++ b) := by
  rw [length_append] at hn
  have hne : ∀ c ∈ used, c ≠ map.block := by
    rintro c hc rfl
    exact (nodup_cons.1 ok.nodup).1 (mem_append_left _ hc)
  have hmoved : (if a.length < n then
        h.mem.moveBefore map.block map.block (a.length * 2) ((a.length + 1) * 2)
          ((n - a.length) * 2)
      else some h.mem) = some (h.mem.put map.block
        (filled (pairCells a) ++ (filled (pairCells b) ++ (raw 2 ++ raw r)))) := by
    split
    · apply moveBefore_same (by decide) hcells
      · rw [filled_length, pairCells_length]
      · rw [filled_length, pairCells_length]
        omega
      · rw [pairCells_length]
        omega
    · have hb : b = [] := eq_nil_of_length_eq_zero (by omega)
      subst hb
      exact congrArg some (put_eq hcells).symm
  unfold closeGap
  rw [hmoved]
  refine ⟨_, rfl, ?_, ⟨?_, ?_, ?_, hroom⟩, fun c hc => put_ne _ (hne c hc)⟩
  · refine ok.write fun c hc => put_ne _ ?_
    rintro rfl
    exact hc mem_cons_self
  · rw [length_append]
    exact hn
  · dsimp only
    omega
  · have hrest : (map.avail - n) * 2 = 2 + r := by omega
    dsimp only
    rw [put_self, hrest, raw_add]
    simp

theorem Made.ne (made : Made h h' (map.block :: used) n more) :
    more.block ≠ map.block := by
  intro he
  apply (nodup_cons.1 made.ok.nodup).1
  rw [he]
  exact mem_append_left _ mem_cons_self

theorem compact_spec {r : ℕ} (made : Made h h' (map.block :: used) n more)
    (hedit : map.editIndex = none) (hroom : BValueMap.capacity map.avail = map.avail)
    (hcells : h.mem map.block = some (raw 2 ++ (filled (pairCells b) ++ raw r)))
    (hr : 2 + b.length * 2 + r = map.avail * 2) (hn : b.length ≤ more.avail) :
    ∃ mem h₂, h'.mem.moveBefore more.block map.block 0 2 (b.length * 2) = some mem ∧
      ({ h' with mem := mem } : MapHeap).delete { map with size := 0 } = some h₂ ∧
      Leaves h used h₂ { more with size := b.length, dataSize := none } b := by
  have hpq := made.ne
  have hsplit : more.avail * 2 = b.length * 2 + (more.avail - b.length) * 2 := by omega
  have hmove := @Store.moveBefore_other _ _ _ h'.mem more.block map.block []
    (raw ((more.avail - b.length) * 2)) (raw 2) (raw r) 0 2 (b.length * 2) (pairCells b) hpq
    (by rw [made.cells, pairCells_length, nil_append, ← raw_add, ← hsplit])
    ((made.same _ mem_cons_self).trans hcells) rfl rfl (pairCells_length b).symm
  have hold : (raw 2 ++ (raw (pairCells b).length ++ raw r) : Cells SValue) =
      raw (map.avail * 2) := by
    rw [pairCells_length, ← raw_add, ← raw_add, ← add_assoc, hr]
  obtain ⟨h₂, hdelete, ok₂, hnew, hkept⟩ := giveBack_spec made.ok hedit hroom
    ((put_self _).trans (congrArg some hold))
    (fun c h1 h2 => (put_ne _ h2).trans (put_ne _ h1))
  refine ⟨_, h₂, hmove, hdelete, ok₂, ⟨rfl, hn, ?_, made.holds.room⟩, fun c hc => ?_⟩
  · rw [hnew, put_ne _ hpq, put_self]
    rfl
  · rw [hkept c hc, made.same c (mem_cons_of_mem _ hc)]

/-- **A pair is removed** from between others, if the table is not compacted around it. -/
theorem removeMapAt_spec (ok : h.Ok (map.block :: used)) (hl : h.Holds map (a ++ p :: b))
    (hedit : map.editIndex = none) (hc : ¬ Compacts h map a.length) :
    ∃ h' map', h.removeMapAt map a.length = some (h', map') ∧ Leaves h used h' map' (a ++ b) ∧
      map'.editIndex = none ∧ map'.size < map'.avail ∧ map'.dataSize = none ∧
      ((h.create ((map.size - 1) * 2)).1 = none ∨ map'.avail =
        if (map.size - 1) * 4 < map.avail ∧ 0 < map.size - 1 then
          BValueMap.capacity ((map.size - 1) * 2)
        else map.avail) := by
  have hsize := hl.size
  have havail := hl.le_avail
  rw [length_append, length_cons] at hsize
  have hn : map.size - 1 = (a ++ b).length := by
    rw [length_append]
    omega
  unfold removeMapAt
  rw [destroyPair_eq hl]
  dsimp only [bind_eq_bind, bind_some]
  generalize hm : h.mem.put map.block (filled (pairCells a) ++ (raw 2 ++ (filled (pairCells b) ++
    raw ((map.avail - map.size) * 2)))) = m
  have hcells : m map.block = some (filled (pairCells a) ++ (raw 2 ++ (filled (pairCells b) ++
    raw ((map.avail - map.size) * 2)))) := by
    rw [← hm]
    exact put_self _
  have ok₀ : ({ h with mem := m } : MapHeap).Ok (map.block :: used) := by
    refine ok.write fun c hcu => ?_
    rw [← hm]
    exact put_ne _ (by rintro rfl; exact hcu mem_cons_self)
  have hsame : ∀ c ∈ used, m c = h.mem c := by
    intro c hcu
    rw [← hm]
    refine put_ne _ ?_
    rintro rfl
    exact (nodup_cons.1 ok.nodup).1 (mem_append_left _ hcu)
  -- without a smaller block the pairs move down
  have hclose : ∀ h₁ : MapHeap, h₁.Ok (map.block :: used) → h₁.mem = m →
      ∃ h' map', h₁.closeGap map a.length (map.size - 1) = some (h', map') ∧
        Leaves h used h' map' (a ++ b) ∧ map'.editIndex = none ∧ map'.size < map'.avail ∧
        map'.dataSize = none ∧ map'.avail = map.avail := by
    intro h₁ ok₁ hmem
    obtain ⟨h', hgap, left⟩ := closeGap_spec ok₁ (by rw [hmem]; exact hcells) hn (by omega) hl.room
    refine ⟨h', _, hgap, ⟨left.ok, left.holds, fun c hcu => ?_⟩, hedit, ?_, rfl, rfl⟩
    · rw [left.same c hcu, hmem]
      exact hsame c hcu
    · dsimp only
      omega
  split
  · rename_i hsmall
    rcases create_spec ok₀ ((map.size - 1) * 2) with
      ⟨h₁, hcreate, ok₁, hmem⟩ | ⟨more, h₁, hcreate, made⟩
    · rw [hcreate]
      obtain ⟨h', map', hgap, left, hedit', hroom, hdata, -⟩ := hclose h₁ ok₁ hmem
      refine ⟨h', map', hgap, left, hedit', hroom, hdata, .inl ?_⟩
      rw [← create_write h m, hcreate]
    · -- there are no pairs before the index
      have hfirst : a = [] := by
        by_contra ha
        refine hc ⟨length_pos_iff.2 ha, by omega, hsmall.1, ?_⟩
        rw [← create_write h m, hcreate]
        rfl
      subst hfirst
      have hb : map.size - 1 = b.length := hn
      have hnew : (map.size - 1) * 2 ≤ more.avail := by
        rw [made.avail]
        exact BValueMap.le_capacity _
      obtain ⟨mem, h₂, hmove, hdelete, left⟩ :=
        compact_spec made hedit hl.room hcells (by omega) (by omega)
      rw [hcreate]
      dsimp only [length_nil]
      rw [if_neg (by omega), if_neg (by omega), bind_some, Nat.sub_zero, Nat.zero_mul,
        zero_add, one_mul, hb, hmove]
      dsimp only [bind_eq_bind, bind_some]
      rw [hdelete]
      refine ⟨h₂, _, rfl, ⟨left.ok, left.holds, fun c hcu => ?_⟩, made.editIndex, ?_, rfl, .inr ?_⟩
      · rw [left.same c hcu]
        exact hsame c hcu
      · dsimp only
        omega
      · rw [← hb]
        exact made.avail
  · obtain ⟨h', map', hgap, left, hedit', hroom, hdata, havail'⟩ := hclose _ ok₀ rfl
    refine ⟨h', map', hgap, left, hedit', hroom, hdata, .inr havail'⟩

/-- **A pair that is not the first** is lost with others when the table is compacted around it. -/
theorem removeMapAt_none (ok : h.Ok (map.block :: used)) (hl : h.Holds map (a ++ p :: b))
    (hc : Compacts h map a.length) :
    h.removeMapAt map a.length = none := by
  obtain ⟨hpos, hsize, hsmall, hcreated⟩ := hc
  unfold removeMapAt
  rw [destroyPair_eq hl]
  dsimp only [bind_eq_bind, bind_some]
  rw [if_pos ⟨hsmall, by omega⟩]
  generalize hm : h.mem.put map.block (filled (pairCells a) ++ (raw 2 ++ (filled (pairCells b) ++
    raw ((map.avail - map.size) * 2)))) = m
  have ok₀ : ({ h with mem := m } : MapHeap).Ok (map.block :: used) := by
    refine ok.write fun c hcu => ?_
    rw [← hm]
    exact put_ne _ (by rintro rfl; exact hcu mem_cons_self)
  rcases create_spec ok₀ ((map.size - 1) * 2) with ⟨h₁, hcreate, -, -⟩ | ⟨more, h₁, hcreate, made⟩
  · rw [← create_write h m, hcreate] at hcreated
    cases hcreated
  · -- the first cell that moves is that of the destroyed key
    have hraw : h₁.mem.read map.block (a.length * 2) = none := by
      unfold Store.read
      rw [made.same _ mem_cons_self, ← hm]
      dsimp only
      rw [put_self]
      dsimp only [bind_eq_bind, bind_some]
      rw [List.getElem?_append_right (by simp)]
      simp [raw]
    rw [hcreate]
    dsimp only
    split
    · rw [moveBefore_raw hraw (by omega)]
      rfl
    · rw [moveBefore_raw hraw (by omega)]
      rfl

/-! ### Calls -/

theorem addAt_spec (ok : h.Ok (map.block :: used)) (hl : h.Holds map l)
    (hedit : map.editIndex = none) {index : ℕ} (hi : index ≤ l.length) (key value : SValue) :
    (∃ h', h.addMapAt map index key value = some (h', map, .noMemory) ∧
        map.avail ≤ map.size ∧ Leaves h used h' map l) ∨
      ∃ h' map', h.addMapAt map index key value = some (h', map', .index index) ∧
        Leaves h used h' map' (l.insertIdx index (key, value)) ∧ map'.editIndex = none := by
  have hlen : (l.take index).length = index := by
    rw [length_take]
    omega
  rw [← take_append_drop index l] at hl
  have hspec := addMapAt_spec ok hl hedit key value
  rw [hlen, take_append_drop, ← insertIdx_eq_take_drop _ _ _ hi] at hspec
  exact hspec

theorem removeAt_spec (ok : h.Ok (map.block :: used)) (hl : h.Holds map l)
    (hedit : map.editIndex = none) (hi : index < l.length)
    (hc : ¬ Compacts h map index) :
    ∃ h' map', h.removeMapAt map index = some (h', map') ∧
      Leaves h used h' map' (l.eraseIdx index) ∧
      map'.editIndex = none ∧ map'.size < map'.avail ∧ map'.dataSize = none ∧
      ((h.create ((map.size - 1) * 2)).1 = none ∨ map'.avail =
        if (map.size - 1) * 4 < map.avail ∧ 0 < map.size - 1 then
          BValueMap.capacity ((map.size - 1) * 2)
        else map.avail) := by
  have hlen : (l.take index).length = index := by
    rw [length_take]
    omega
  rw [← take_append_drop index l, drop_eq_getElem_cons hi] at hl
  have hspec := removeMapAt_spec ok hl hedit
  rw [hlen, ← eraseIdx_eq_take_drop_succ] at hspec
  exact hspec hc

theorem removeAt_none (ok : h.Ok (map.block :: used)) (hl : h.Holds map l) {index : ℕ}
    (hi : index < l.length) (hc : Compacts h map index) : h.removeMapAt map index = none := by
  have hlen : (l.take index).length = index := by
    rw [length_take]
    omega
  rw [← take_append_drop index l, drop_eq_getElem_cons hi] at hl
  have hnone := removeMapAt_none ok hl
  rw [hlen] at hnone
  exact hnone hc

theorem Holds.read_value (hl : h.Holds map l) (hp : l[i]? = some p) :
    h.mem.read map.block (i * 2 + 1) = some p.2 := by
  have hmap := hl.mapAt_eq i
  rw [hp] at hmap
  obtain ⟨key, -, hmap⟩ := bind_eq_some_iff.1 hmap
  obtain ⟨value, hvalue, hmap⟩ := bind_eq_some_iff.1 hmap
  obtain ⟨⟩ := hmap
  exact hvalue

theorem Holds.header (hl : h.Holds map l) (dataSize editIndex : Option ℕ) :
    h.Holds { map with dataSize := dataSize, editIndex := editIndex } l :=
  ⟨hl.size, hl.le_avail, hl.cells, hl.room⟩

/-- The index of a pair that is edited. -/
def Edited (map : MapBlock) (l : List SValue.Pair) : Prop :=
  ∀ i, map.editIndex = some i → i < l.length

theorem Edited.of_none (hedit : map.editIndex = none) : Edited map l := by
  intro i hi
  rw [hedit] at hi
  cases hi

/-- **A call is the operation on the list**, or fails and keeps it. -/
def Performs (h : MapHeap) (used : List ℕ) (o : Option (MapHeap × MapBlock × Result))
    (l l' : List SValue.Pair) : Prop :=
  ∃ h' map' result, o = some (h', map', result) ∧
    Leaves h used h' map' (if result = .noMemory then l else l') ∧
    Edited map' (if result = .noMemory then l else l')

theorem Performs.same {result : Result} (ok : h.Ok (map.block :: used)) (hl : h.Holds map l)
    (he : Edited map l) : Performs h used (some (h, map, result)) l l := by
  refine ⟨h, map, result, rfl, ?_⟩
  rw [ite_self]
  exact ⟨⟨ok, hl, fun _ _ => rfl⟩, he⟩

theorem Performs.removed (ok : h.Ok (map.block :: used)) (hl : h.Holds map l)
    (hedit : map.editIndex = none) {index : ℕ} (hi : index < l.length)
    (hc : ¬ Compacts h map index) :
    Performs h used ((h.removeMapAt map index).map fun (h, map) => (h, map, .ok)) l
      (l.eraseIdx index) := by
  obtain ⟨h', map', hremove, left, hedit', -, -⟩ := removeAt_spec ok hl hedit hi hc
  rw [hremove]
  exact ⟨h', map', .ok, rfl, left, Edited.of_none hedit'⟩

variable {key value : SValue}

theorem addNewMap_performs (ok : h.Ok (map.block :: used)) (hl : h.Holds map l)
    (hedit : map.editIndex = none) (key value : SValue) :
    Performs h used (h.addNewMap map key value) l
      (BValueMap.addNewMap ⟨0, none, l⟩ key value).maps := by
  unfold addNewMap BValueMap.addNewMap
  rw [hl.getIndexOf_eq]
  split
  · have hle := BValueMap.getIndexOf_le ⟨0, none, l⟩ key value
    rcases hsearch : BValueMap.getIndexOf ⟨0, none, l⟩ key value with ⟨_ | _, index⟩
    · rw [hsearch] at hle
      rw [BValueMap.addMapAt_maps]
      rcases @addAt_spec h { map with dataSize := none } used l ok (hl.header none map.editIndex)
          hedit index hle key value with
        ⟨h', hadd, -, left⟩ | ⟨h', map', hadd, left, hedit'⟩
      · exact ⟨h', _, .noMemory, hadd, left, Edited.of_none hedit⟩
      · exact ⟨h', map', .index index, hadd, left, Edited.of_none hedit'⟩
    · exact Performs.same ok hl (Edited.of_none hedit)
  · exact Performs.same ok hl (Edited.of_none hedit)

theorem indexFor_none {k v : SValue} (hi : BValueMap.indexFor ⟨0, none, l⟩ k v = none) :
    ∃ index, BValueMap.getIndexOf ⟨0, none, l⟩ k v = (false, index) := by
  unfold BValueMap.indexFor at hi
  rcases hsearch : BValueMap.getIndexOf ⟨0, none, l⟩ k v with ⟨_ | _, index⟩
  · exact ⟨index, rfl⟩
  · rw [hsearch] at hi
    cases hi

theorem indexFor_lt {k v : SValue} (hi : BValueMap.indexFor ⟨0, none, l⟩ k v = some index) :
    BValueMap.getIndexOf ⟨0, none, l⟩ k v = (true, index) ∧ index < l.length := by
  unfold BValueMap.indexFor at hi
  rcases hsearch : BValueMap.getIndexOf ⟨0, none, l⟩ k v with ⟨_ | _, i⟩
  · rw [hsearch] at hi
    cases hi
  · rw [hsearch] at hi
    obtain ⟨⟩ := hi
    have hlt := @BValueMap.getIndexOf_lt ⟨0, none, l⟩ k v (by rw [hsearch])
    rw [hsearch] at hlt
    exact ⟨rfl, hlt⟩

section

variable (ok : h.Ok (map.block :: used)) (hl : h.Holds map l)
include ok hl

theorem removeMap_performs (hedit : map.editIndex = none)
    (hc : ∀ index,
      (Call.removeMap key value).removed l map.editIndex = some index → ¬ Compacts h map index) :
    Performs h used (h.removeMap map key value) l
      ((Call.removeMap key value).apply l map.editIndex) := by
  unfold removeMap Call.apply Call.removed
  unfold Call.removed at hc
  dsimp only at hc ⊢
  split
  · rename_i hcond
    rw [if_pos hcond] at hc
    rw [hl.getIndexOf_eq]
    cases hfound : BValueMap.indexFor ⟨0, none, l⟩ key value with
    | none =>
      obtain ⟨i, hsearch⟩ := indexFor_none hfound
      rw [hsearch]
      exact Performs.same ok hl (Edited.of_none hedit)
    | some index =>
      obtain ⟨hsearch, hlt⟩ := indexFor_lt hfound
      rw [hsearch]
      exact Performs.removed ok hl hedit hlt (hc index hfound)
  · -- everything goes
    have hne : ∀ c ∈ used, c ≠ map.block := by
      rintro c hcu rfl
      exact (nodup_cons.1 ok.nodup).1 (mem_append_left _ hcu)
    have hall := @Store.destroyAll_eq _ _ _ h.mem map.block []
      (raw ((map.avail - map.size) * 2)) 0 (map.size * 2) (pairCells l) hl.cells rfl
      (by rw [pairCells_length, hl.size])
    rw [hall]
    refine ⟨_, _, .nameNotFound, rfl, ⟨?_, ⟨rfl, zero_le _, ?_, hl.room⟩, fun c hcu => ?_⟩,
      Edited.of_none hedit⟩
    · refine ok.write fun c hcu => put_ne _ ?_
      rintro rfl
      exact hcu mem_cons_self
    · have hsize := hl.size
      have havail := hl.le_avail
      dsimp only
      rw [put_self, pairCells_length, nil_append, ← raw_add]
      congr 2
      omega
    · exact put_ne _ (hne c hcu)

theorem renameMap_performs (hedit : map.editIndex = none) {oldKey newKey : SValue}
    (hc : ∀ index,
      (Call.renameMap oldKey newKey).removed l map.editIndex = some index →
        ¬ Compacts h map index) :
    Performs h used (h.renameMap map oldKey newKey) l
      ((Call.renameMap oldKey newKey).apply l map.editIndex) := by
  unfold renameMap Call.apply Call.removed
  unfold Call.removed at hc
  dsimp only at hc ⊢
  split
  · rename_i hcond
    rw [if_pos hcond] at hc
    rw [hl.getIndexOf_eq]
    cases hfound : BValueMap.indexFor ⟨0, none, l⟩ oldKey SValue.wild with
    | none =>
      obtain ⟨i, hsearch⟩ := indexFor_none hfound
      rw [hsearch]
      exact Performs.same ok hl (Edited.of_none hedit)
    | some index =>
      obtain ⟨hsearch, hlt⟩ := indexFor_lt hfound
      have hp : l[index]? = some l[index] := List.getElem?_eq_getElem hlt
      rw [hsearch]
      rw [hfound] at hc
      dsimp only [bind_eq_bind, bind_some] at hc ⊢
      rw [hp] at hc ⊢
      rw [hl.read_value hp]
      dsimp only [bind_some] at hc ⊢
      rw [hl.getIndexOf_eq]
      cases hnew : BValueMap.getIndexOf ⟨0, none, l⟩ newKey l[index].2 with
      | mk hit newIndex =>
        cases hit with
        | true => exact Performs.same ok hl (Edited.of_none hedit)
        | false =>
          have hle : newIndex ≤ l.length := by
            have := BValueMap.getIndexOf_le ⟨0, none, l⟩ newKey l[index].2
            rwa [hnew] at this
          have hpos : (if newIndex > index then newIndex - 1 else newIndex) ≤
              (l.eraseIdx index).length := by
            rw [length_eraseIdx_of_lt hlt]
            split <;> omega
          rw [hnew] at hc
          obtain ⟨h₁, map₁, hremove, left₁, hedit₁, hroom, -⟩ :=
            removeAt_spec ok hl hedit hlt (hc index rfl)
          rw [hremove]
          dsimp only [bind_some]
          -- there is room for a pair now
          rcases addAt_spec left₁.ok left₁.holds hedit₁ hpos newKey l[index].2 with
            ⟨h₂, -, hfull, -⟩ | ⟨h₂, map₂, hadd, left₂, hedit₂⟩
          · omega
          · rw [hadd]
            refine ⟨h₂, { map₂ with dataSize := none }, .ok, rfl, ⟨left₂.ok, ?_, fun c hcu => ?_⟩,
              Edited.of_none hedit₂⟩
            · rw [if_neg (by decide), if_neg (by decide), elim_some, hp, elim_some,
                hnew]
              exact left₂.holds.header none map₂.editIndex
            · rw [left₂.same c hcu, left₁.same c hcu]
  · exact Performs.same ok hl (Edited.of_none hedit)

theorem assign_performs (he : Edited map l) (hi : map.editIndex = some i) (value : SValue) :
    Performs h used (h.assign map i value) l ((Call.assign value).apply l map.editIndex) := by
  have hlt := he i hi
  have hne : ∀ c ∈ used, c ≠ map.block := by
    rintro c hcu rfl
    exact (nodup_cons.1 ok.nodup).1 (mem_append_left _ hcu)
  obtain ⟨a, b, p, rfl, rfl⟩ : ∃ a b p, l = a ++ p :: b ∧ i = a.length :=
    ⟨l.take i, l.drop (i + 1), l[i], by rw [getElem_cons_drop, take_append_drop],
      by rw [length_take]; omega⟩
  have hassign : h.mem.assign map.block (a.length * 2 + 1) value = some (h.mem.put map.block
      (filled (pairCells (a ++ (p.1, value) :: b)) ++ raw ((map.avail - map.size) * 2))) := by
    have := assign_eq (P := ℕ) (m := h.mem) (p := map.block) (x := p.2) (y := value)
      (a := filled (pairCells a) ++ [some p.1])
      (b := filled (pairCells b) ++ raw ((map.avail - map.size) * 2))
      (by rw [hl.cells]; simp [filled_cons])
    rw [length_append, filled_length, pairCells_length] at this
    rw [show a.length * 2 + 1 = a.length * 2 + [some p.1].length from rfl, this]
    simp [filled_cons]
  have happly : (Call.assign value).apply (a ++ p :: b) map.editIndex =
      a ++ (p.1, value) :: b := by
    have hat : (a ++ p :: b)[a.length]? = some (p.1, p.2) := by simp
    show map.editIndex.elim (a ++ p :: b) _ = _
    rw [hi, elim_some, SValue.modify_eq_set value hat]
    simp
  unfold assign
  rw [hassign, happly]
  have hlen : (a ++ (p.1, value) :: b).length = (a ++ p :: b).length := by simp
  refine ⟨_, map, .ok, rfl, ⟨?_, ⟨?_, hl.le_avail, put_self _, hl.room⟩, fun c hcu => ?_⟩, ?_⟩
  · refine ok.write fun c hcu => put_ne _ ?_
    rintro rfl
    exact hcu mem_cons_self
  · rw [if_neg (by decide), hlen]
    exact hl.size
  · exact put_ne _ (hne c hcu)
  · intro j hj
    rw [if_neg (by decide), hlen]
    exact he j hj

theorem endEditMapAt_performs (he : Edited map l) (hi : map.editIndex = some i)
    (hc : ∀ index,
      Call.endEditMapAt.removed l map.editIndex = some index → ¬ Compacts h map index) :
    Performs h used (h.endEditMapAt map i) l (Call.endEditMapAt.apply l map.editIndex) := by
  have hlt := he i hi
  have hp : l[i]? = some l[i] := List.getElem?_eq_getElem hlt
  unfold Call.apply Call.removed
  unfold Call.removed at hc
  rw [hi] at hc ⊢
  dsimp only [bind_eq_bind, bind_some] at hc ⊢
  rw [hp] at hc ⊢
  dsimp only [bind_some] at hc ⊢
  unfold endEditMapAt
  rw [hl.read_value hp]
  dsimp only [bind_eq_bind, bind_some]
  have hl' := hl.header none none
  cases hd : l[i].2.isDefined with
  | true =>
    exact @Performs.same h { map with dataSize := none, editIndex := none } used l .ok ok hl'
      (Edited.of_none rfl)
  | false =>
    rw [hd] at hc
    exact @Performs.removed h { map with dataSize := none, editIndex := none } used l ok hl' rfl i
      hlt (hc i rfl)

theorem perform_spec (he : Edited map l) {call : Call}
    (hallow : call.Allowed map.size map.editIndex) (hc : ∀ index,
      call.removed l map.editIndex = some index → ¬ Compacts h map index) :
    Performs h used (h.perform map call) l (call.apply l map.editIndex) := by
  cases call with
  | addNewMap key value => exact addNewMap_performs ok hl hallow key value
  | removeMapAt index =>
    have hlt : index < l.length := by
      rw [← hl.size]
      exact hallow.2
    exact Performs.removed ok hl hallow.1 hlt (hc index rfl)
  | removeMap key value => exact removeMap_performs ok hl hallow hc
  | renameMap oldKey newKey => exact renameMap_performs ok hl hallow hc
  | beginEditMapAt index =>
    refine ⟨h, { map with editIndex := some index }, .ok, rfl,
      ⟨ok, hl.header map.dataSize (some index), fun _ _ => rfl⟩, fun i hi => ?_⟩
    obtain ⟨⟩ := hi
    rw [if_neg (by decide)]
    show index < l.length
    rw [← hl.size]
    exact hallow.2
  | assign value =>
    obtain ⟨i, hi⟩ := ne_none_iff_exists'.1 hallow
    have := assign_performs ok hl he hi value
    unfold perform
    rw [hi] at this ⊢
    exact this
  | endEditMapAt =>
    obtain ⟨i, hi⟩ := ne_none_iff_exists'.1 hallow
    have := endEditMapAt_performs ok hl he hi hc
    unfold perform
    rw [hi] at this ⊢
    exact this

/-- **A call that compacts the table** around a pair that is not the first has no result. -/
theorem perform_none (he : Edited map l) {call : Call}
    (hallow : call.Allowed map.size map.editIndex) (hr : call.removed l map.editIndex = some index)
    (hc : Compacts h map index) :
    h.perform map call = none := by
  cases call with
  | addNewMap key value => cases hr
  | removeMapAt i =>
    obtain rfl := Option.some.inj hr
    have hlt : i < l.length := by
      rw [← hl.size]
      exact hallow.2
    show (h.removeMapAt map i).map _ = none
    rw [removeAt_none ok hl hlt hc]
    rfl
  | removeMap key value =>
    obtain ⟨hcond, hfound⟩ := ite_none_right_eq_some.1 hr
    obtain ⟨hsearch, hlt⟩ := indexFor_lt hfound
    show h.removeMap map key value = none
    unfold removeMap
    rw [if_pos hcond, hl.getIndexOf_eq, hsearch]
    dsimp only
    rw [removeAt_none ok hl hlt hc]
    rfl
  | renameMap oldKey newKey =>
    obtain ⟨hcond, hr⟩ := ite_none_right_eq_some.1 hr
    obtain ⟨i, hfound, hr⟩ := bind_eq_some_iff.1 hr
    obtain ⟨p, hp, hr⟩ := bind_eq_some_iff.1 hr
    obtain ⟨hnew, hr⟩ := ite_none_left_eq_some.1 hr
    obtain ⟨⟩ := hr
    obtain ⟨hsearch, hlt⟩ := indexFor_lt hfound
    have hmiss : BValueMap.getIndexOf ⟨0, none, l⟩ newKey p.2 =
        (false, (BValueMap.getIndexOf ⟨0, none, l⟩ newKey p.2).2) :=
      Prod.ext (by simpa using hnew) rfl
    show h.renameMap map oldKey newKey = none
    unfold renameMap
    rw [if_pos hcond, hl.getIndexOf_eq, hsearch]
    dsimp only [bind_eq_bind]
    rw [hl.read_value hp, bind_some, hl.getIndexOf_eq, hmiss]
    rw [removeAt_none ok hl hlt hc]
    rfl
  | beginEditMapAt i => cases hr
  | assign value => cases hr
  | endEditMapAt =>
    obtain ⟨i, hi, hr⟩ := bind_eq_some_iff.1 hr
    obtain ⟨p, hp, hr⟩ := bind_eq_some_iff.1 hr
    obtain ⟨hd, hr⟩ := ite_none_left_eq_some.1 hr
    obtain rfl := Option.some.inj hr
    show map.editIndex.bind _ = none
    rw [hi, bind_some, endEditMapAt]
    dsimp only [bind_eq_bind]
    rw [hl.read_value hp, bind_some, if_neg hd]
    rw [@removeAt_none h { map with editIndex := none, dataSize := none } used l ok
      (hl.header none none) i (he i hi) hc]
    rfl

end

/-! ### Runs -/

/-- **The invariant**: the blocks are apart and the tables hold their lists. -/
structure Inv (s : State) : Prop where
  defined : s.faulted = false
  ok : s.heap.Ok (s.maps.map fun e => e.1.block)
  holds : ∀ map l, (map, l) ∈ s.maps → s.heap.Holds map l
  edited : ∀ map l, (map, l) ∈ s.maps → Edited map l

theorem Inv.refines (inv : Inv s) : Refines s where
  defined := inv.defined
  holds := fun map l hm =>
    ⟨(inv.holds map l hm).size, (inv.holds map l hm).le_avail, (inv.holds map l hm).cells⟩

theorem Inv.init (room : ℕ → Bool) : Inv ⟨MapHeap.init room, [], false⟩ where
  defined := rfl
  ok := by
    refine ⟨nodup_nil, fun c hc => absurd hc not_mem_nil, fun p map hm => ?_⟩
    cases hm
  holds := fun map l hm => by cases hm
  edited := fun map l hm => by cases hm

section Focus

variable {s : State} {pre post : List (MapBlock × List SValue.Pair)}

theorem Inv.focus (inv : Inv s) (hs : s.maps = pre ++ (map, l) :: post) :
    s.heap.Ok (map.block :: (pre ++ post).map fun e => e.1.block) := by
  have ok := inv.ok
  rw [hs] at ok
  refine ok.perm ?_
  rw [map_append, map_cons, map_append]
  exact perm_middle

theorem mem_others (hs : s.maps = pre ++ (map, l) :: post) {e : MapBlock × List SValue.Pair}
    (he : e ∈ pre ++ post) : e ∈ s.maps := by
  rw [hs]
  rcases mem_append.1 he with he | he
  · exact mem_append_left _ he
  · exact mem_append_right _ (mem_cons_of_mem _ he)

theorem Inv.replace (inv : Inv s) (hs : s.maps = pre ++ (map, l) :: post)
    {map' : MapBlock} {l' : List SValue.Pair}
    (left : Leaves s.heap ((pre ++ post).map fun e => e.1.block) h' map' l')
    (he : Edited map' l') : Inv { s with heap := h', maps := pre ++ (map', l') :: post } := by
  have hcases : ∀ m k, (m, k) ∈ pre ++ (map', l') :: post →
      (m, k) = (map', l') ∨ (m, k) ∈ pre ++ post := by
    intro m k hm
    rcases mem_append.1 hm with hm | hm
    · exact .inr (mem_append_left _ hm)
    · rcases mem_cons.1 hm with hm | hm
      · exact .inl hm
      · exact .inr (mem_append_right _ hm)
  refine ⟨inv.defined, left.ok.perm ?_, fun m k hm => ?_, fun m k hm => ?_⟩
  · rw [map_append, map_append, map_cons]
    exact perm_middle.symm
  · rcases hcases m k hm with hm | hm
    · obtain ⟨⟩ := hm
      exact left.holds
    · exact (inv.holds m k (mem_others hs hm)).congr
        (left.same _ (mem_map_of_mem (f := fun e => e.1.block) hm))
  · rcases hcases m k hm with hm | hm
    · obtain ⟨⟩ := hm
      exact he
    · exact inv.edited m k (mem_others hs hm)

theorem Inv.remove (inv : Inv s) (hs : s.maps = pre ++ (map, l) :: post)
    (ok : h'.Ok ((pre ++ post).map fun e => e.1.block))
    (hsame : ∀ c ∈ (pre ++ post).map fun e => e.1.block, h'.mem c = s.heap.mem c) :
    Inv { s with heap := h', maps := pre ++ post } where
  defined := inv.defined
  ok := ok
  holds := fun m k hm => (inv.holds m k (mem_others hs hm)).congr
    (hsame _ (mem_map_of_mem (f := fun e => e.1.block) hm))
  edited := fun m k hm => inv.edited m k (mem_others hs hm)

end Focus

theorem exists_split (hi : s.maps[i]? = some (map, l)) :
    ∃ pre post, s.maps = pre ++ (map, l) :: post ∧ i = pre.length := by
  obtain ⟨hlt, hget⟩ := List.getElem?_eq_some_iff.1 hi
  refine ⟨s.maps.take i, s.maps.drop (i + 1), ?_, ?_⟩
  · rw [← hget, getElem_cons_drop, take_append_drop]
  · rw [length_take]
    omega

/-- **A step that does not compact keeps the invariant.** -/
theorem Inv.step {s' : State} {action : Action} (inv : Inv s) (hs : step s action = some s')
    (hq : Observes s action) : Inv s' := by
  cases action with
  | create initSize =>
    rcases create_spec inv.ok initSize with ⟨h₁, hcreate, ok, hmem⟩ | ⟨map, h₁, hcreate, made⟩
    · simp only [MapHeap.step, hcreate] at hs
      obtain ⟨⟩ := hs
      exact ⟨inv.defined, ok, fun m k hm => (inv.holds m k hm).congr (by rw [hmem]), inv.edited⟩
    · simp only [MapHeap.step, hcreate] at hs
      obtain ⟨⟩ := hs
      have hcases : ∀ m k, (m, k) ∈ s.maps ++ [(map, [])] →
          (m, k) ∈ s.maps ∨ (m, k) = (map, []) := by
        intro m k hm
        rcases mem_append.1 hm with hm | hm
        · exact .inl hm
        · exact .inr (mem_singleton.1 hm)
      refine ⟨inv.defined, made.ok.perm ?_, fun m k hm => ?_, fun m k hm => ?_⟩
      · rw [map_append]
        exact (perm_append_singleton _ _).symm
      · rcases hcases m k hm with hm | hm
        · exact (inv.holds m k hm).congr
            (made.same _ (mem_map_of_mem (f := fun e => e.1.block) hm))
        · obtain ⟨⟩ := hm
          exact made.holds
      · rcases hcases m k hm with hm | hm
        · exact inv.edited m k hm
        · obtain ⟨⟩ := hm
          exact Edited.of_none made.editIndex
  | delete i =>
    obtain ⟨⟨map, l⟩, hi, hs⟩ := bind_eq_some_iff.1 hs
    obtain ⟨hedit, hs⟩ := ite_none_right_eq_some.1 hs
    obtain ⟨pre, post, hsplit, rfl⟩ := exists_split hi
    have hl := inv.holds map l (mem_of_getElem? hi)
    have hsize := hl.size
    have havail := hl.le_avail
    obtain ⟨h₁, hdelete, ok, hsame⟩ := delete_spec (inv.focus hsplit) hedit hl.room hl.cells
      (by rw [pairCells_length, hl.size]) (by rw [pairCells_length]; omega)
    rw [hdelete] at hs
    obtain ⟨⟩ := hs
    have herase : s.maps.eraseIdx pre.length = pre ++ post := by
      rw [hsplit, eraseIdx_append_of_length_le (Nat.le_refl _), Nat.sub_self]
      rfl
    rw [herase]
    exact inv.remove hsplit ok hsame
  | call i call =>
    obtain ⟨⟨map, l⟩, hi, hs⟩ := bind_eq_some_iff.1 hs
    obtain ⟨hallow, hs⟩ := ite_none_right_eq_some.1 hs
    obtain ⟨pre, post, hsplit, rfl⟩ := exists_split hi
    obtain ⟨h₁, map', result, hperform, left, he⟩ := perform_spec (inv.focus hsplit)
      (inv.holds map l (mem_of_getElem? hi)) (inv.edited map l (mem_of_getElem? hi))
      hallow (fun index => hq map l index hi)
    rw [hperform] at hs
    obtain ⟨⟩ := hs
    have hset : ∀ e, s.maps.set pre.length e = pre ++ e :: post := by
      intro e
      rw [hsplit, set_append_right _ _ (Nat.le_refl _), Nat.sub_self]
      rfl
    rw [hset]
    exact inv.replace hsplit left he

theorem Inv.observes {s' : State} {action : Action} (inv : Inv s)
    (hs : MapHeap.step s action = some s') (href : Refines s') : Observes s action := by
  cases action with
  | call i call =>
    intro map l index hi hremoved hc
    simp only [MapHeap.step, hi, bind_eq_bind, bind_some] at hs
    obtain ⟨hallow, hs⟩ := ite_none_right_eq_some.1 hs
    obtain ⟨pre, post, hsplit, rfl⟩ := exists_split hi
    have hnone := perform_none (inv.focus hsplit) (inv.holds map l (mem_of_getElem? hi))
      (inv.edited map l (mem_of_getElem? hi)) hallow hremoved hc
    rw [hnone] at hs
    obtain ⟨⟩ := hs
    cases href.defined
  | _ => trivial

end MapHeap

end OpenBinder
