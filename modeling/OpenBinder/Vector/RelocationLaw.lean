import OpenBinder.Vector.Relocation

/-!
# What can be exchanged and relocated

* `memmove_object`: the objects after a copy, and `memmove_raw`: their storage if all of it is raw.
* `Exchanged.iff`, `Relocated.before_iff`, `Relocated.after_iff`: vectors on the heap can be exchanged
  and relocated, and no others.
-/

namespace OpenBinder.SAbstractVector

open Lib Function Option Nat

variable {α : Type}

namespace Objects

variable {s s' old : Objects α} {o dest src : Address} {a b n m count d c : ℕ} {l la lb : List α}

/-! ### Objects -/

/-- What no call changes. -/
def Same (s s' : Objects α) : Prop :=
  s'.elementSize = s.elementSize ∧ s'.bytewise = s.bytewise

theorem copyObject_eq (h : copyObject old dest src s = some s') :
    s'.object = update s.object dest (old.object src) ∧ s.Same s' := by
  obtain ⟨x, -, h⟩ := bind_eq_some_iff.1 h
  obtain ⟨y, -, h⟩ := bind_eq_some_iff.1 h
  obtain ⟨cells, -, rfl⟩ := map_eq_some_iff.1 h
  exact ⟨rfl, rfl, rfl⟩

theorem memmove_object : ∀ {n : ℕ} {s' : Objects α}, memmove old d c n s = some s' →
    (∀ i < n, s'.object (.slot (d + i)) = old.object (.slot (c + i))) ∧
      ∀ o, (∀ i < n, o ≠ .slot (d + i)) → s'.object o = s.object o := by
  intro n
  induction n with
  | zero =>
    intro s' h
    obtain ⟨⟩ := h
    exact ⟨fun i hi => absurd hi (not_lt_zero i), fun _ _ => rfl⟩
  | succ n ih =>
    intro s' h
    obtain ⟨w, hw, hcopy⟩ := bind_eq_some_iff.1 h
    obtain ⟨hin, hout⟩ := ih hw
    have hobj := (copyObject_eq hcopy).1
    refine ⟨fun i hi => ?_, fun o ho => ?_⟩
    · rw [hobj]
      by_cases hlast : i = n
      · rw [hlast, update_self]
      · rw [update_of_ne (by simpa using hlast)]
        exact hin i (by omega)
    · rw [hobj, update_of_ne (ho n (lt_succ_self n))]
      exact hout o fun i hi => ho i (by omega)

theorem performMoveBefore_object (h : s.performMoveBefore dest src n = some s') :
    s'.object = s.object ∧ s.Same s' := by
  unfold performMoveBefore at h
  split at h
  · obtain ⟨x, -, h⟩ := bind_eq_some_iff.1 h
    obtain ⟨y, -, h⟩ := bind_eq_some_iff.1 h
    obtain ⟨-, h⟩ := ite_none_right_eq_some.1 h
    obtain ⟨⟩ := h
    exact ⟨rfl, rfl, rfl⟩
  · obtain ⟨mem, -, rfl⟩ := map_eq_some_iff.1 h
    exact ⟨rfl, rfl, rfl⟩

theorem moveLocal_object (h : moveLocal o dest src n s = some s') :
    s'.object = s.object ∧ s.Same s' := by
  unfold moveLocal at h
  split at h
  · exact performMoveBefore_object h
  · obtain ⟨⟩ := h
    exact ⟨rfl, rfl, rfl⟩

theorem moveBeforeLoop_object : ∀ {n d c : ℕ} {s : Objects α},
    moveBeforeLoop d c n s = some s' → s'.object = s.object := by
  intro n
  induction n with
  | zero =>
    intro d c s h
    obtain ⟨⟩ := h
    rfl
  | succ n ih =>
    intro d c s h
    obtain ⟨w, hw, hrest⟩ := bind_eq_some_iff.1 h
    exact (ih hrest).trans (moveLocal_object hw).1

theorem moveAfterLoop_object : ∀ {n : ℕ} {s : Objects α},
    moveAfterLoop d c n s = some s' → s'.object = s.object := by
  intro n
  induction n with
  | zero =>
    intro s h
    obtain ⟨⟩ := h
    rfl
  | succ n ih =>
    intro s h
    obtain ⟨w, hw, hrest⟩ := bind_eq_some_iff.1 h
    exact (ih hrest).trans (moveLocal_object hw).1

/-! ### Where elements are -/

theorem base_of_local (h : (s.vector (.slot a)).Holds l) (hlocal : ¬s.OnHeap a) :
    (s.object (.slot a)).base = .localOf (.slot a) := by
  rcases h.shape.base with ⟨hbase, -⟩ | ⟨p, -, -, hheap⟩
  · unfold vector at hbase
    split at hbase
    · next o' ho =>
      split at hbase
      · next heq => rw [ho, heq]
      · exact absurd hbase (by simp)
    · exact absurd hbase (by simp)
  · exact absurd hheap hlocal

theorem base_of_heap (h : (s.vector (.slot a)).Holds l) (hheap : s.OnHeap a) :
    (∃ p, (s.object (.slot a)).base = .block p) ∧
      s.mem (.localOf (.slot a)) = some (raw s.localSpace) := by
  rcases h.shape.base with ⟨-, havail⟩ | ⟨p, hbase, -⟩
  · exact absurd havail (ne_of_gt hheap)
  · constructor
    · unfold vector at hbase
      split at hbase
      · split at hbase <;> exact absurd hbase (by simp)
      · next p' hp => exact ⟨p', hp⟩
    · have hstored := congrFun h.shape.stored .localSpace
      rw [hbase, layout_local (by simp)] at hstored
      exact hstored

theorem not_holds_of_base (hbase : (s.object (.slot a)).base = .localOf (.slot b)) (hne : b ≠ a) :
    ¬(s.vector (.slot a)).Holds l := by
  intro h
  have hview : (s.vector (.slot a)).base = .buffer := by
    unfold vector
    rw [hbase]
    exact if_neg (by simpa using hne)
  rcases h.shape.base with ⟨hlocal, -⟩ | ⟨p, hblock, -⟩
  · rw [hview] at hlocal
    exact absurd hlocal (by simp)
  · rw [hview] at hblock
    exact absurd hblock (by simp)

/-- **A vector on the heap is the same vector elsewhere**, with its bytes and its block. -/
theorem vector_eq (hsize : s'.elementSize = s.elementSize)
    (hobj : s'.object (.slot b) = s.object (.slot a))
    (hbase : ∃ p, (s.object (.slot a)).base = .block p)
    (hblock : ∀ p, s'.mem (.block p) = s.mem (.block p))
    (hlocal : s'.mem (.localOf (.slot b)) = s.mem (.localOf (.slot a))) :
    s'.vector (.slot b) = s.vector (.slot a) := by
  obtain ⟨p, hp⟩ := hbase
  unfold vector
  rw [hsize, hobj, hp]
  congr 1
  funext q
  cases q with
  | localSpace => exact hlocal
  | buffer => rfl
  | block p' =>
    dsimp only
    rw [hblock]

theorem vector_congr (hsize : s'.elementSize = s.elementSize) (hobj : s'.object o = s.object o)
    (hblock : ∀ p, s'.mem (.block p) = s.mem (.block p))
    (hlocal : s'.mem (.localOf o) = s.mem (.localOf o)) : s'.vector o = s.vector o := by
  unfold vector
  rw [hsize, hobj, hlocal]
  congr 1
  funext q
  cases q with
  | localSpace => rfl
  | buffer => rfl
  | block p =>
    dsimp only
    rw [hblock]

/-! ### Raw storage -/

theorem copyObject_of {x y : Cells α} (hdest : old.mem (.localOf dest) = some x)
    (hsrc : old.mem (.localOf src) = some y)
    (hraw : old.bytewise = true ∨ x = raw old.localSpace ∧ y = raw old.localSpace) :
    copyObject old dest src s = some { s with
      object := update s.object dest (old.object src)
      mem := s.mem.put (.localOf dest) y } := by
  have hover : old.overwrite x y = some y := by
    rcases hraw with hbytes | ⟨rfl, rfl⟩
    · rw [overwrite, if_pos hbytes]
    · have hall : (raw old.localSpace : Cells α).all Option.isNone = true :=
        List.all_eq_true.2 fun z hz => by
          rw [List.eq_of_mem_replicate hz]
          rfl
      rw [overwrite, raw_length, if_pos hall, ite_self]
  rw [copyObject, hdest, hsrc, bind_some, bind_some, hover, map_some]

theorem copyObject_raw (hmem : s.mem = old.mem)
    (hdest : old.mem (.localOf dest) = some (raw old.localSpace))
    (hsrc : old.mem (.localOf src) = some (raw old.localSpace)) :
    copyObject old dest src s =
      some { s with object := update s.object dest (old.object src) } := by
  have hput : s.mem.put (.localOf dest) (raw old.localSpace) = s.mem := by
    unfold Store.put
    rw [hmem, ← hdest, update_eq_self]
  rw [copyObject_of hdest hsrc (.inr ⟨rfl, rfl⟩), hput]

theorem memmove_raw (hdest : ∀ i < n, s.mem (.localOf (.slot (d + i))) = some (raw s.localSpace))
    (hsrc : ∀ i < n, s.mem (.localOf (.slot (c + i))) = some (raw s.localSpace)) :
    ∃ s', memmove s d c n s = some s' ∧ s'.mem = s.mem ∧ s'.elementSize = s.elementSize ∧
      s'.bytewise = s.bytewise := by
  induction n with
  | zero => exact ⟨s, rfl, rfl, rfl, rfl⟩
  | succ n ih =>
    obtain ⟨w, hw, hmem, hsize, hbytes⟩ := ih (fun i hi => hdest i (by omega))
      fun i hi => hsrc i (by omega)
    have hcopy := copyObject_raw hmem (hdest n (lt_succ_self n)) (hsrc n (lt_succ_self n))
    refine ⟨_, Eq.trans ?_ hcopy, hmem, hsize, hbytes⟩
    rw [memmove, hw, bind_some]

theorem moveLocal_heap (h : s.OnHeap a) : moveLocal (.slot a) dest src n s = some s := by
  rw [moveLocal, if_neg fun hno => absurd hno.1 (not_le.2 h)]

theorem moveBeforeLoop_heap : ∀ {n d c : ℕ}, (∀ i < n, s.OnHeap (c + i)) →
    moveBeforeLoop d c n s = some s := by
  intro n
  induction n with
  | zero => intro d c _; rfl
  | succ n ih =>
    intro d c h
    have hfirst : s.OnHeap c := h 0 (succ_pos n)
    rw [moveBeforeLoop, moveLocal_heap hfirst, bind_some]
    refine ih fun i hi => ?_
    rw [Nat.add_right_comm]
    exact h (i + 1) (by omega)

theorem moveAfterLoop_heap : ∀ {n : ℕ}, (∀ i < n, s.OnHeap (c + i)) →
    moveAfterLoop d c n s = some s := by
  intro n
  induction n with
  | zero => intro _; rfl
  | succ n ih =>
    intro h
    rw [moveAfterLoop, moveLocal_heap (h n (lt_succ_self n)), bind_some]
    exact ih fun i hi => h i (by omega)

/-! ### Relocation -/

variable {ls : ℕ → List α} {r : Objects α → Option (Objects α)}

section

variable (hm : Movable s d c n ls)
include hm

/-- **Vectors on the heap are relocated** by a copy, whatever does nothing for them then. -/
theorem Movable.relocated (hheap : ∀ i < n, s.OnHeap (c + i))
    (hr : ∀ s', s'.elementSize = s.elementSize → (∀ i < n, s'.OnHeap (c + i)) → r s' = some s') :
    Relocated ((memmove s d c n s).bind r) s d c n ls := by
  have hsrc : ∀ i < n, s.mem (.localOf (.slot (c + i))) = some (OpenBinder.Lib.raw s.localSpace) :=
    fun i hi => (base_of_heap (hm.holds i hi) (hheap i hi)).2
  have hdest : ∀ i < n,
      s.mem (.localOf (.slot (d + i))) = some (OpenBinder.Lib.raw s.localSpace) := by
    intro i hi
    by_cases hin : ∃ j < n, d + i = c + j
    · obtain ⟨j, hj, heq⟩ := hin
      rw [heq]
      exact hsrc j hj
    · exact hm.raw i hi fun j hj heq => hin ⟨j, hj, heq⟩
  obtain ⟨s', hs', hmem, hsize, hbytes⟩ := memmove_raw hdest hsrc
  obtain ⟨hin, hout⟩ := memmove_object hs'
  have hheap' : ∀ i < n, s'.OnHeap (c + i) := by
    intro i hi
    -- the bytes of a source are those of a source
    unfold OnHeap localSpace
    rw [hsize]
    by_cases hover : ∃ j < n, c + i = d + j
    · obtain ⟨j, hj, heq⟩ := hover
      rw [heq, hin j hj]
      exact hheap j hj
    · rw [hout _ fun j hj heq => hover ⟨j, hj, Address.slot.inj heq⟩]
      exact hheap i hi
  refine ⟨s', ?_, fun i hi => ?_, fun p => by rw [hmem], fun i hi _ => .inr ?_, fun o ho => ?_⟩
  · rw [hs', bind_some, hr s' hsize hheap']
  · rw [vector_eq hsize (hin i hi) (base_of_heap (hm.holds i hi) (hheap i hi)).1
      (fun p => by rw [hmem]) (by rw [hmem, hdest i hi, hsrc i hi])]
    exact hm.holds i hi
  · rw [hmem]
    exact hsrc i hi
  · exact vector_congr hsize (hout _ fun i hi heq => (ho i hi).1 (Address.slot.inj heq))
      (fun p => by rw [hmem]) (by rw [hmem])

theorem Relocated.onHeap (hne : 0 < n → d ≠ c)
    (hr : ∀ s' s'' : Objects α, r s' = some s'' → s''.object = s'.object)
    (h : Relocated ((memmove s d c n s).bind r) s d c n ls) : ∀ i < n, s.OnHeap (c + i) := by
  intro i hi
  by_contra hlocal
  obtain ⟨s', hs', hholds, -⟩ := h
  obtain ⟨w, hw, hrest⟩ := bind_eq_some_iff.1 hs'
  have hobj : s'.object (.slot (d + i)) = s.object (.slot (c + i)) := by
    rw [hr w s' hrest]
    exact (memmove_object hw).1 i hi
  have hbase := base_of_local (hm.holds i hi) hlocal
  rw [← hobj] at hbase
  exact not_holds_of_base hbase (by omega) (hholds i hi)

/-- **`MoveAfter`** relocates exactly vectors on the heap. -/
theorem Relocated.after_iff (hover : 0 < n → c < d ∨ d + n ≤ c) :
    Relocated (s.moveAfter d c n) s d c n ls ↔ ∀ i < n, s.OnHeap (c + i) := by
  constructor
  · refine Relocated.onHeap hm (fun hpos => ?_) fun s' s'' => moveAfterLoop_object
    omega
  · exact fun hheap => hm.relocated hheap fun s' _ => moveAfterLoop_heap

/-- **`MoveBefore`** relocates exactly vectors on the heap, if they do not overlap. -/
theorem Relocated.before_iff (hover : 0 < n → d < c ∨ c + n ≤ d) :
    Relocated (s.moveBefore d c n) s d c n ls ↔
      (∀ i < n, s.OnHeap (c + i)) ∧ (d + n ≤ c ∨ c + n ≤ d) := by
  have hne : 0 < n → d ≠ c := fun hpos => by
    omega
  by_cases hapart : d + n ≤ c ∨ c + n ≤ d
  · have hcopy : s.memcpy d c n = memmove s d c n s := by
      by_cases heq : d = c
      · obtain rfl : n = 0 := by
          by_contra hn
          exact hne (Nat.pos_of_ne_zero hn) heq
        rw [memcpy, if_pos heq]
        rfl
      · rw [memcpy, if_neg heq, if_pos hapart]
    rw [moveBefore, hcopy]
    constructor
    · exact fun h => ⟨h.onHeap hm hne fun s' s'' => moveBeforeLoop_object, hapart⟩
    · exact fun h => hm.relocated h.1 fun s' _ => moveBeforeLoop_heap
  · refine ⟨?_, fun h => absurd h.2 hapart⟩
    rintro ⟨s', hs', -⟩
    rw [moveBefore, memcpy, if_neg (hne (by omega)), if_neg hapart] at hs'
    exact absurd hs' (by simp)

end

/-! ### Exchange -/

theorem memcpyObject_object (h : memcpyObject dest src s = some s') :
    s'.object = update s.object dest (s.object src) ∧ s.Same s' := by
  unfold memcpyObject at h
  split at h
  · next heq =>
    obtain ⟨⟩ := h
    exact ⟨by rw [heq, update_eq_self], rfl, rfl⟩
  · exact copyObject_eq h

theorem swap_object (h : s.swap a b = some s') :
    s'.object (.slot a) = s.object (.slot b) ∧ s'.object (.slot b) = s.object (.slot a) ∧
      ∀ o, o ≠ a → o ≠ b → s'.object (.slot o) = s.object (.slot o) := by
  obtain ⟨s1, h1, h⟩ := bind_eq_some_iff.1 h
  obtain ⟨s2, h2, h⟩ := bind_eq_some_iff.1 h
  obtain ⟨s3, h3, h⟩ := bind_eq_some_iff.1 h
  obtain ⟨s4, h4, h⟩ := bind_eq_some_iff.1 h
  obtain ⟨s5, h5, h6⟩ := bind_eq_some_iff.1 h
  rw [(moveLocal_object h6).1, (memcpyObject_object h5).1, (moveLocal_object h4).1,
    (memcpyObject_object h3).1, (moveLocal_object h2).1, (memcpyObject_object h1).1]
  refine ⟨?_, ?_, fun o hoa hob => ?_⟩
  · by_cases hba : a = b
    · subst hba
      rw [update_self, update_of_ne (by simp), update_self]
    · rw [update_of_ne (by simpa using hba), update_self,
        update_of_ne (by simp)]
  · rw [update_self, update_of_ne (by simp), update_self]
  · rw [update_of_ne (by simpa using hob), update_of_ne (by simpa using hoa),
      update_of_ne (by simp)]

theorem memcpyObject_raw (hdest : s.mem (.localOf dest) = some (raw s.localSpace))
    (hsrc : s.mem (.localOf src) = some (raw s.localSpace)) :
    memcpyObject dest src s =
      some { s with object := update s.object dest (s.object src) } := by
  rw [memcpyObject]
  split
  · next heq => rw [heq, update_eq_self]
  · exact copyObject_raw rfl hdest hsrc

section

variable (ha : (s.vector (.slot a)).Holds la) (hb : (s.vector (.slot b)).Holds lb)
include ha hb

theorem Exchanged.of_swap (hs : s.swap a b = some s') (hsize : s'.elementSize = s.elementSize)
    (hmem : ∀ p, p ≠ .localOf .buffer → s'.mem p = s.mem p)
    (hheap : s.OnHeap a ∧ s.OnHeap b ∨ a = b) : Exchanged s a b la lb := by
  obtain ⟨hoa, hob, hout⟩ := swap_object hs
  have hblock (p : ℕ) : s'.mem (.block p) = s.mem (.block p) := hmem _ (by simp)
  have hlocal (o : ℕ) : s'.mem (.localOf (.slot o)) = s.mem (.localOf (.slot o)) :=
    hmem _ (by simp)
  refine ⟨s', hs, ?_, ?_, hblock, fun o hoa hob =>
    vector_congr hsize (hout o hoa hob) hblock (hlocal o)⟩
  · rcases hheap with ⟨hha, hhb⟩ | rfl
    · rw [vector_eq hsize hoa (base_of_heap hb hhb).1 hblock (by
        rw [hlocal, (base_of_heap ha hha).2, (base_of_heap hb hhb).2])]
      exact hb
    · rw [vector_congr hsize hoa hblock (hlocal a)]
      exact hb
  · rcases hheap with ⟨hha, hhb⟩ | rfl
    · rw [vector_eq hsize hob (base_of_heap ha hha).1 hblock (by
        rw [hlocal, (base_of_heap ha hha).2, (base_of_heap hb hhb).2])]
      exact ha
    · rw [vector_congr hsize hob hblock (hlocal a)]
      exact ha

theorem Exchanged.of_heap (hha : s.OnHeap a) (hhb : s.OnHeap b) : Exchanged s a b la lb := by
  have hlocal (o : ℕ) : (s.mem.put (.localOf .buffer) (raw s.localSpace)) (.localOf (.slot o)) =
      s.mem (.localOf (.slot o)) := Store.put_ne _ (by simp)
  have hrawa := (hlocal a).trans (base_of_heap ha hha).2
  have hrawb := (hlocal b).trans (base_of_heap hb hhb).2
  have hbuffer : (s.mem.put (.localOf .buffer) (raw s.localSpace)) (.localOf .buffer) =
      some (raw s.localSpace) := Store.put_self _
  -- with other objects, and the buffer
  let w (f : Address → Object) : Objects α :=
    { s with object := f, mem := s.mem.put (.localOf .buffer) (raw s.localSpace) }
  have hcopy (f : Address → Object) (dest src : Address)
      (hdest : (w f).mem (.localOf dest) = some (raw s.localSpace))
      (hsrc : (w f).mem (.localOf src) = some (raw s.localSpace)) :
      memcpyObject dest src (w f) = some (w (update f dest (f src))) :=
    memcpyObject_raw hdest hsrc
  have hmove (f : Address → Object) {o : ℕ} (dest src : Address)
      (ho : s.localSpace < (f (.slot o)).avail) :
      moveLocal (.slot o) dest src 1 (w f) = some (w f) := moveLocal_heap ho
  have h1 := hcopy s.object .buffer (.slot a) hbuffer hrawa
  have h2 := hmove (update s.object .buffer (s.object (.slot a))) .buffer (.slot a)
    (by rw [update_of_ne (by simp)]; exact hha)
  have h3 := hcopy (update s.object .buffer (s.object (.slot a))) (.slot a) (.slot b) hrawa
    hrawb
  rw [update_of_ne (by simp)] at h3
  have h4 := hmove (update (update s.object .buffer (s.object (.slot a)))
    (.slot a) (s.object (.slot b))) (.slot a) (.slot b) (by rw [update_self]; exact hhb)
  have h5 := hcopy (update (update s.object .buffer (s.object (.slot a)))
    (.slot a) (s.object (.slot b))) (.slot b) .buffer hrawb hbuffer
  rw [update_of_ne (by simp), update_self] at h5
  have h6 := hmove (update (update (update s.object .buffer
    (s.object (.slot a))) (.slot a) (s.object (.slot b))) (.slot b) (s.object (.slot a))) (.slot b)
    .buffer (by rw [update_self]; exact hha)
  have hs : s.swap a b = some _ := bind_eq_some_iff.2 ⟨_, h1, bind_eq_some_iff.2
    ⟨_, h2, bind_eq_some_iff.2 ⟨_, h3, bind_eq_some_iff.2
      ⟨_, h4, bind_eq_some_iff.2 ⟨_, h5, h6⟩⟩⟩⟩⟩
  exact Exchanged.of_swap ha hb hs rfl (fun p hp => Store.put_ne _ hp) (.inl ⟨hha, hhb⟩)

end

/-- Elements are not moved where the bytes of all are there already, or there are none. -/
theorem moveLocal_same {cells : Cells α} (hdest : s.mem (.localOf dest) = some cells)
    (hsrc : s.mem (.localOf src) = some cells)
    (h : 0 < (s.object o).size → s.bytewise = true ∧ 1 ≤ cells.length) :
    moveLocal o dest src 1 s = some s := by
  unfold moveLocal
  split
  · next hlocal =>
    obtain ⟨hbytes, hlen⟩ := h hlocal.2
    have hput : s.mem.put (.localOf dest) cells = s.mem := by
      unfold Store.put
      rw [← hdest, update_eq_self]
    rw [performMoveBefore, if_pos hbytes, hdest, hsrc, bind_some, bind_some,
      if_pos ⟨hlen, hlen⟩, List.take_append_drop, hput]
  · rfl

/-- **A local vector is exchanged with itself**, if its bytes are its elements or it has none. -/
theorem Exchanged.of_self (ha : (s.vector (.slot a)).Holds la)
    (hb : (s.vector (.slot a)).Holds lb) (hlocal : ¬s.OnHeap a)
    (hmove : s.bytewise = true ∨ (s.object (.slot a)).size = 0) : Exchanged s a a la lb := by
  obtain ⟨cells, hcells, hraw, hlen⟩ : ∃ cells, s.mem (.localOf (.slot a)) = some cells ∧
      (s.bytewise = true ∨ cells = raw s.localSpace) ∧
      (0 < (s.object (.slot a)).size → s.bytewise = true ∧ 1 ≤ cells.length) := by
    rcases ha.shape.base with ⟨hbase, havail⟩ | ⟨p, -, -, hheap⟩
    · have hstored := congrFun ha.shape.stored .localSpace
      rw [hbase, layout_base] at hstored
      refine ⟨_, hstored, hmove.imp_right fun hzero => ?_, fun hpos => ⟨?_, ?_⟩⟩
      · obtain rfl : la = [] := List.length_eq_zero_iff.1 (ha.size.symm.trans hzero)
        rw [havail, show (s.vector (.slot a)).size = 0 from hzero]
        rfl
      · exact hmove.resolve_right (ne_of_gt hpos)
      · rw [ha.shape.length]
        exact le_trans hpos ha.le_avail
    · exact absurd hheap hlocal
  have hne : Site.localOf (.slot a) ≠ .localOf .buffer := by simp
  have hbuffer : (s.mem.put (.localOf .buffer) (raw s.localSpace)) (.localOf .buffer) =
      some (raw s.localSpace) := Store.put_self _
  have hsource : (s.mem.put (.localOf .buffer) (raw s.localSpace)) (.localOf (.slot a)) =
      some cells := (Store.put_ne _ hne).trans hcells
  -- the buffer has the bytes of the vector
  obtain ⟨w, h1, hwmem, hwo, hwbuffer, hwbytes, hwsize⟩ : ∃ w, memcpyObject .buffer (.slot a)
      { s with mem := s.mem.put (.localOf .buffer) (raw s.localSpace) } = some w ∧
      w.mem = (s.mem.put (.localOf .buffer) (raw s.localSpace)).put (.localOf .buffer) cells ∧
      w.object (.slot a) = s.object (.slot a) ∧ w.object .buffer = s.object (.slot a) ∧
      w.bytewise = s.bytewise ∧ w.elementSize = s.elementSize := by
    have hcopy : copyObject { s with mem := s.mem.put (.localOf .buffer) (raw s.localSpace) } .buffer
        (.slot a) { s with mem := s.mem.put (.localOf .buffer) (raw s.localSpace) } = _ :=
      copyObject_of hbuffer hsource (hraw.imp_right fun h => ⟨rfl, h⟩)
    rw [memcpyObject, if_neg (by simp)]
    refine ⟨_, hcopy, rfl, ?_, ?_, rfl, rfl⟩ <;> dsimp only
    · rw [update_of_ne (by simp)]
    · rw [update_self]
  have hwa : w.mem (.localOf (.slot a)) = some cells := by
    rw [hwmem, Store.put_ne _ hne, Store.put_ne _ hne, hcells]
  have hwb : w.mem (.localOf .buffer) = some cells := by rw [hwmem, Store.put_self]
  have hwlen : 0 < (w.object (.slot a)).size → w.bytewise = true ∧ 1 ≤ cells.length := by
    rw [hwo, hwbytes]
    exact hlen
  have h2 : moveLocal (.slot a) .buffer (.slot a) 1 w = some w := moveLocal_same hwb hwa hwlen
  have h3 : memcpyObject (.slot a) (.slot a) w = some w := if_pos rfl
  have h4 : moveLocal (.slot a) (.slot a) (.slot a) 1 w = some w := moveLocal_same hwa hwa hwlen
  -- and they go back to where they are
  obtain ⟨w', h5, hmem', ho', hbytes', hsize'⟩ : ∃ w', memcpyObject (.slot a) .buffer w = some w' ∧
      w'.mem = w.mem.put (.localOf (.slot a)) cells ∧ w'.object (.slot a) = s.object (.slot a) ∧
      w'.bytewise = s.bytewise ∧ w'.elementSize = s.elementSize := by
    have hraw' : w.bytewise = true ∨ cells = raw w.localSpace := by
      rw [hwbytes, localSpace, hwsize]
      exact hraw
    have hcopy := copyObject_of (s := w) hwa hwb (hraw'.imp_right fun h => ⟨h, h⟩)
    rw [memcpyObject, if_neg (by simp)]
    refine ⟨_, hcopy, rfl, ?_, hwbytes, hwsize⟩
    dsimp only
    rw [update_self, hwbuffer]
  have hwa' : w'.mem (.localOf (.slot a)) = some cells := by rw [hmem', Store.put_self]
  have hwb' : w'.mem (.localOf .buffer) = some cells := by
    rw [hmem', Store.put_ne _ hne.symm, hwb]
  have h6 : moveLocal (.slot a) (.slot a) .buffer 1 w' = some w' := by
    apply moveLocal_same hwa' hwb'
    rw [ho', hbytes']
    exact hlen
  have hs : s.swap a a = some w' := bind_eq_some_iff.2 ⟨_, h1, bind_eq_some_iff.2
    ⟨_, h2, bind_eq_some_iff.2 ⟨_, h3, bind_eq_some_iff.2
      ⟨_, h4, bind_eq_some_iff.2 ⟨_, h5, h6⟩⟩⟩⟩⟩
  refine Exchanged.of_swap ha hb hs hsize' (fun p hp => ?_) (.inr rfl)
  by_cases hpa : p = .localOf (.slot a)
  · rw [hpa, hwa', hcells]
  · rw [hmem', Store.put_ne _ hpa, hwmem, Store.put_ne _ hp, Store.put_ne _ hp]

theorem move_self (m : Store Site α) (p : Site) (i : ℕ) : m.move p i p i = none := by
  unfold Store.move Store.read Store.construct
  cases hp : m p with
  | none => rfl
  | some cells =>
    cases hx : cells[i]? with
    | none => simp [hx]
    | some x => cases x <;> simp [hx]

/-- **A local vector is not exchanged with itself** if its elements are moved one by one. -/
theorem swap_self (hlocal : ¬s.OnHeap a) (hpos : 0 < (s.object (.slot a)).size)
    (hbytes : s.bytewise = false) : s.swap a a = none := by
  by_contra hsome
  obtain ⟨s', h⟩ := ne_none_iff_exists'.1 hsome
  obtain ⟨s1, h1, h⟩ := bind_eq_some_iff.1 h
  obtain ⟨s2, h2, h⟩ := bind_eq_some_iff.1 h
  obtain ⟨s3, h3, h⟩ := bind_eq_some_iff.1 h
  obtain ⟨s4, h4, -⟩ := bind_eq_some_iff.1 h
  obtain ⟨hobj1, hsize1, hbytes1⟩ := memcpyObject_object h1
  obtain ⟨hobj2, hsize2, hbytes2⟩ := moveLocal_object h2
  rw [memcpyObject, if_pos rfl] at h3
  obtain ⟨⟩ := h3
  have hobj : s2.object (.slot a) = s.object (.slot a) := by
    rw [hobj2, hobj1, update_of_ne (by simp)]
  have hmove : (s2.object (.slot a)).avail ≤ s2.localSpace ∧ 0 < (s2.object (.slot a)).size := by
    rw [hobj, localSpace, hsize2, hsize1]
    exact ⟨not_lt.1 hlocal, hpos⟩
  have hnot : ¬s2.bytewise = true := by
    rw [hbytes2, hbytes1, hbytes]
    exact Bool.false_ne_true
  rw [moveLocal, if_pos hmove, performMoveBefore, if_neg hnot, Store.moveBefore, move_self] at h4
  exact absurd h4 (by simp)

/-- **`Swap`** exchanges exactly vectors on the heap, and a vector with itself where nothing is moved
or its elements are moved by their bytes. -/
theorem Exchanged.iff (ha : (s.vector (.slot a)).Holds la) (hb : (s.vector (.slot b)).Holds lb) :
    Exchanged s a b la lb ↔ s.OnHeap a ∧ s.OnHeap b ∨
      a = b ∧ (s.bytewise = true ∨ (s.object (.slot a)).size = 0) := by
  constructor
  · rintro ⟨s', hs, hholdsa, hholdsb, -⟩
    obtain ⟨hoa, hob, -⟩ := swap_object hs
    by_cases hab : a = b
    · subst hab
      by_cases hheap : s.OnHeap a
      · exact .inl ⟨hheap, hheap⟩
      · refine .inr ⟨rfl, ?_⟩
        by_contra hno
        rw [not_or, Bool.not_eq_true] at hno
        rw [swap_self hheap (Nat.pos_of_ne_zero hno.2) hno.1] at hs
        exact absurd hs (by simp)
    · refine .inl ⟨?_, ?_⟩
      · by_contra hlocal
        exact not_holds_of_base (hob ▸ base_of_local ha hlocal) hab hholdsb
      · by_contra hlocal
        exact not_holds_of_base (hoa ▸ base_of_local hb hlocal) (Ne.symm hab) hholdsa
  · rintro (⟨hha, hhb⟩ | ⟨rfl, hmove⟩)
    · exact Exchanged.of_heap ha hb hha hhb
    · by_cases hheap : s.OnHeap a
      · exact Exchanged.of_heap ha hb hheap hheap
      · exact Exchanged.of_self ha hb hheap hmove

/-- **Vectors can be exchanged and relocated exactly on the heap**: with `Swap`, but for a vector with
itself where none of its elements is moved or they are moved by their bytes; with `MoveBefore`, if
they do not overlap, which `memcpy` does not allow; and with `MoveAfter`. -/
theorem relocation_iff (s : Objects α) :
    (∀ a b la lb, (s.vector (.slot a)).Holds la → (s.vector (.slot b)).Holds lb →
      (Exchanged s a b la lb ↔ s.OnHeap a ∧ s.OnHeap b ∨
        a = b ∧ (s.bytewise = true ∨ (s.object (.slot a)).size = 0))) ∧
    (∀ dest src count l, Movable s dest src count l →
      (0 < count → dest < src ∨ src + count ≤ dest) →
      (Relocated (s.moveBefore dest src count) s dest src count l ↔
        (∀ i < count, s.OnHeap (src + i)) ∧ (dest + count ≤ src ∨ src + count ≤ dest))) ∧
    (∀ dest src count l, Movable s dest src count l →
      (0 < count → src < dest ∨ dest + count ≤ src) →
      (Relocated (s.moveAfter dest src count) s dest src count l ↔
        ∀ i < count, s.OnHeap (src + i))) :=
  ⟨fun _ _ _ _ => Exchanged.iff, fun _ _ _ _ => Relocated.before_iff,
    fun _ _ _ _ => Relocated.after_iff⟩

/-- Two vectors of elements of eight bytes, each with a block. -/
def blocks : Objects ℕ where
  elementSize := 8
  bytewise := false
  object
    | .slot 0 => ⟨2, 3, .block 0, some 0⟩
    | .slot _ => ⟨1, 2, .block 1, some 1⟩
    | .buffer => ⟨0, 0, .block 0, none⟩
  mem
    | .block 0 => some (filled [5, 6] ++ raw 1)
    | .block 1 => some (filled [7] ++ raw 1)
    | .block _ => none
    | .localOf _ => some (raw 1)

theorem blocks_holds : (blocks.vector (.slot 0)).Holds [5, 6] ∧
    (blocks.vector (.slot 1)).Holds [7] := by
  constructor
  · refine ⟨rfl, by decide, by decide, ?_, rfl, by decide, .inr ⟨0, rfl, rfl, by decide⟩⟩
    funext p
    cases p with
    | localSpace => rfl
    | buffer => rfl
    | block b => cases b <;> simp [vector, blocks, layout]
  · refine ⟨rfl, by decide, by decide, ?_, rfl, by decide, .inr ⟨1, rfl, rfl, by decide⟩⟩
    funext p
    cases p with
    | localSpace => rfl
    | buffer => rfl
    | block b =>
      by_cases hb : b = 1
      · subst hb
        rfl
      · have hne : ¬1 = b := fun h => hb h.symm
        simp [vector, blocks, layout, hb, hne]

/-- The two are exchanged. -/
theorem relocation_blocks : Exchanged blocks 0 1 [5, 6] [7] :=
  ((relocation_iff blocks).1 0 1 _ _ blocks_holds.1 blocks_holds.2).2
    (Or.inl ⟨by unfold OnHeap; decide, by unfold OnHeap; decide⟩)

/-- New vectors of elements of four bytes. -/
def new : Objects ℕ where
  elementSize := 4
  bytewise := true
  object o := ⟨0, 2, .localOf o, none⟩
  mem
    | .localOf _ => some (raw 2)
    | .block _ => none

/-- New vectors are not exchanged: `m_base` of each points into the other one. -/
theorem new_not_exchanged : (new.vector (.slot 0)).Holds [] ∧ (new.vector (.slot 1)).Holds [] ∧
    ¬Exchanged new 0 1 [] [] := by
  have hholds (o : ℕ) : (new.vector (.slot o)).Holds [] := by
    refine ⟨rfl, zero_le _, (by decide : 0 < 4), ?_, ?_, (by decide : 2 * 4 < 2 ^ 32),
      Or.inl ⟨?_, (by decide : 2 = 8 / 4)⟩⟩
    · funext p
      cases p <;> simp [vector, new, layout]
    · rfl
    · exact if_pos rfl
  refine ⟨hholds 0, hholds 1, fun h => ?_⟩
  rcases (Exchanged.iff (hholds 0) (hholds 1)).1 h with ⟨hheap, -⟩ | ⟨hab, -⟩
  · exact absurd hheap (by unfold OnHeap; decide)
  · exact absurd hab (by decide)

end Objects

end OpenBinder.SAbstractVector
