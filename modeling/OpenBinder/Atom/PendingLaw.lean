import OpenBinder.Atom.Pending
import OpenBinder.Lib.Word
import Mathlib.Data.List.Dedup
import Mathlib.Data.List.Perm.Subperm
import Mathlib.Data.List.Pairwise
import Mathlib.Order.Basic

/-!
# The pending allocations of atoms

* `Shows`: the chain in the memory lists the pending blocks, newest first, and every other block
  has its atom.
* `Shows.operatorNew`, `Shows.construct`, `Shows.operatorDelete`: the calls keep it.
* `exact_iff`: **the chain is exact in every state of a run** exactly if no block is deleted that has
  an older one, or two newer ones, and no size is that large. What `operator delete` takes for a
  pointer to an atom is the tagged link of a pending block, and `unlink` follows a tagged link.
-/

namespace OpenBinder.SAtom

open Lib Function List

open Memory

/-! ### Tags -/

theorem untag_tag {p : Word} (h : p &&& 1 = 0) : untag (tag p) = p := by
  unfold untag tag
  have hp : p &&& ~~~(1 : Word) = p := by
    calc p &&& ~~~(1 : Word) = (p &&& ~~~1) ||| (p &&& 1) := by rw [h]; exact BitVec.or_zero.symm
      _ = p &&& (~~~1 ||| 1) := by rw [BitVec.and_or_distrib_left]
      _ = p := by
        rw [show (~~~1 ||| 1 : Word) = BitVec.allOnes 32 by decide, BitVec.and_allOnes]
  rw [BitVec.and_or_distrib_right, hp, show (1 &&& ~~~1 : Word) = 0 by decide]
  exact BitVec.or_zero

theorem tag_and_one (p : Word) : tag p &&& 1 = 1 := by
  unfold tag
  ext i
  simp only [BitVec.getElem_and, BitVec.getElem_or]
  cases p[i] <;> simp

theorem tag_ne_zero (p : Word) : tag p ≠ 0 := by
  intro h
  have hbit := tag_and_one p
  rw [h] at hbit
  exact absurd hbit (by decide)

theorem toNat_tag {p : Word} (h : p &&& 1 = 0) : (tag p).toNat = p.toNat + 1 := by
  unfold tag
  rw [← BitVec.add_eq_or_of_and_eq_zero p 1 h, BitVec.toNat_add]
  have hmod := and_one_eq_zero_iff.1 h
  have hone : (1 : Word).toNat = 1 := by decide
  rw [hone]
  omega

/-! ### Blocks -/

/-- **The blocks are apart**, each with room for its `base_data`, and the atoms are in theirs. -/
structure Allocations.Valid (g : Allocations) : Prop where
  place : ∀ b ∈ g.blocks, b.addr ≠ 0 ∧ b.addr &&& 1 = 0 ∧
    sizeofBaseData.toNat ≤ b.size.toNat ∧ b.addr.toNat + b.size.toNat < 2 ^ 32
  apart : g.blocks.Pairwise Block.Apart
  inside : ∀ e ∈ g.attached, e.1.Contains e.2

instance : Std.Symm Block.Apart := ⟨fun _ _ => Or.symm⟩

namespace Allocations

variable {g : Allocations} {b b' : Block} {l r : List Block} {this : Word}

theorem Valid.eq_of_mem (h : g.Valid) (hb : b ∈ g.blocks) (hb' : b' ∈ g.blocks) {n : ℕ}
    (hn : b.addr.toNat ≤ n ∧ n < b.addr.toNat + b.size.toNat)
    (hn' : b'.addr.toNat ≤ n ∧ n < b'.addr.toNat + b'.size.toNat) : b = b' := by
  by_contra hne
  have hapart := h.apart.forall hb hb' hne
  unfold Block.Apart at hapart
  omega

theorem Valid.size_pos (h : g.Valid) (hb : b ∈ g.blocks) :
    sizeofBaseData.toNat ≤ b.size.toNat := (h.place b hb).2.2.1

theorem Valid.eq_of_addr (h : g.Valid) (hb : b ∈ g.blocks) (hb' : b' ∈ g.blocks)
    (heq : b.addr = b'.addr) : b = b' := by
  have hsize := h.size_pos hb
  have hsize' := h.size_pos hb'
  have h16 : sizeofBaseData.toNat = 16 := rfl
  refine h.eq_of_mem hb hb' (n := b.addr.toNat) ⟨Nat.le_refl _, by omega⟩ ?_
  rw [heq]
  exact ⟨Nat.le_refl _, by omega⟩

theorem Valid.nodup (h : g.Valid) : g.blocks.Nodup := by
  have h16 : sizeofBaseData.toNat = 16 := rfl
  refine List.Pairwise.imp_of_mem (fun {b b'} hb _ hapart heq => ?_) h.apart
  subst heq
  have hsize := h.size_pos hb
  unfold Block.Apart at hapart
  omega

theorem Valid.nodup_addr (h : g.Valid) : (g.blocks.map Block.addr).Nodup :=
  h.nodup.map_on fun _ hb _ hb' heq => h.eq_of_addr hb hb' heq

theorem mem_blocks_of_pending (hb : b ∈ g.pending) : b ∈ g.blocks := mem_append_left _ hb

theorem mem_blocks_of_attached {e : Block × Word} (he : e ∈ g.attached) : e.1 ∈ g.blocks :=
  mem_append_right _ (mem_map_of_mem he)

theorem Valid.ne_attached (h : g.Valid) {e : Block × Word} (hb : b ∈ g.pending)
    (he : e ∈ g.attached) : e.1.addr ≠ b.addr := by
  intro heq
  obtain rfl := h.eq_of_addr (mem_blocks_of_attached he) (mem_blocks_of_pending hb) heq
  exact (nodup_append'.1 h.nodup).2.2 hb (mem_map_of_mem he)

theorem Valid.length_lt (h : g.Valid) : g.pending.length < 2 ^ 32 := by
  have hnodup : ((g.pending.map Block.addr).map BitVec.toNat).Nodup := by
    refine List.Nodup.map (fun _ _ => BitVec.eq_of_toNat_eq) ?_
    refine h.nodup_addr.sublist ?_
    rw [blocks, map_append]
    exact sublist_append_left _ _
  -- no address is zero
  have hzero : 0 ∉ (g.pending.map Block.addr).map BitVec.toNat := by
    rw [map_map, mem_map]
    rintro ⟨b, hb, heq⟩
    exact (h.place b (mem_blocks_of_pending hb)).1 (BitVec.eq_of_toNat_eq heq)
  have hsub : 0 :: (g.pending.map Block.addr).map BitVec.toNat ⊆ List.range (2 ^ 32) := by
    intro n hn
    rw [mem_range]
    rcases mem_cons.1 hn with rfl | hn
    · exact Nat.two_pow_pos 32
    · obtain ⟨p, -, rfl⟩ := mem_map.1 hn
      exact p.isLt
  have hle := ((nodup_cons.2 ⟨hzero, hnodup⟩).subperm hsub).length_le
  rw [length_cons, length_map, length_map, length_range] at hle
  exact hle

end Allocations

/-! ### The chain -/

/-- What is in the thread slot. -/
def top : List Block → Word
  | [] => 0
  | b :: _ => b.addr

/-- The link to a chain, where `w` is behind it. -/
def link (w : Word) : List Block → Word
  | [] => w
  | b :: _ => tag b.addr

/-- The blocks are in a chain that goes on with `w`. -/
def Segment (m : Memory) (w : Word) : List Block → Prop
  | [] => True
  | b :: l => m.heap b.addr = some ⟨initialPrimaryValue, 0, link w l, b.size⟩ ∧ Segment m w l

/-- **The memory is that of the allocations**: the chain of the pending blocks, and the blocks with
an atom, which are out of it. -/
structure Memory.Shows (m : Memory) (g : Allocations) : Prop where
  slot : m.slot = top g.pending
  chain : Segment m 0 g.pending
  attached : ∀ e ∈ g.attached, m.heap e.1.addr = some ⟨initialPrimaryValue, 0, e.2, 0⟩ ∧
    m.base e.2 = some e.1.addr
  free : ∀ p, (∀ b ∈ g.blocks, b.addr ≠ p) → m.heap p = none
  unbuilt : ∀ a, (∀ e ∈ g.attached, e.2 ≠ a) → m.base a = none

section Chain

variable {m m' : Memory} {w : Word} {l r : List Block} {b c : Block}

theorem link_append (w : Word) (l r : List Block) : link w (l ++ r) = link (link w r) l := by
  cases l <;> rfl

theorem segment_append : Segment m w (l ++ r) ↔ Segment m (link w r) l ∧ Segment m w r := by
  induction l with
  | nil => simp [Segment]
  | cons b l ih =>
    rw [cons_append, Segment, ih, Segment, link_append, and_assoc]

theorem Segment.congr (h : Segment m w l) (heap : ∀ b ∈ l, m'.heap b.addr = m.heap b.addr) :
    Segment m' w l := by
  induction l with
  | nil => trivial
  | cons b l ih =>
    refine ⟨?_, ih h.2 fun c hc => heap c (mem_cons_of_mem _ hc)⟩
    rw [heap b mem_cons_self]
    exact h.1

theorem untag_link (h : ∀ b ∈ l, b.addr &&& 1 = 0) : untag (link 0 l) = top l := by
  cases l with
  | nil => decide
  | cons b l => exact untag_tag (h b mem_cons_self)

/-- The block before the rest of a chain. -/
def before : List Block → Word
  | [] => 0
  | b :: l => if l = [] then b.addr else before l

theorem before_append (l : List Block) (c : Block) : before (l ++ [c]) = c.addr := by
  induction l with
  | nil => rfl
  | cons b l ih =>
    rw [cons_append, before, if_neg (by simp)]
    exact ih

/-- **A block is cut out of the chain**, by the one before it. -/
theorem Memory.Shows.cut {g : Allocations} (h : m.Shows g) (hv : g.Valid) (hl : g.pending = l ++ b :: r) :
    ∃ m₁, m.cut (before l) (link 0 r) = some m₁ ∧ m₁.slot = top (l ++ r) ∧ Segment m₁ 0 (l ++ r) ∧
      (∀ p, (∀ c ∈ l, c.addr ≠ p) → m₁.heap p = m.heap p) ∧ m₁.base = m.base := by
  have hmem : ∀ c ∈ g.pending, c.addr ≠ 0 ∧ c.addr &&& 1 = 0 := fun c hc =>
    have hplace := hv.place c (Allocations.mem_blocks_of_pending hc)
    ⟨hplace.1, hplace.2.1⟩
  have hchain := h.chain
  rw [hl, segment_append] at hchain
  obtain ⟨hl₁, -, hr₁⟩ := hchain
  rcases eq_nil_or_concat l with rfl | ⟨l, c, rfl⟩
  · refine ⟨{ m with slot := untag (link 0 r) }, ?_, ?_, ?_, fun _ _ => rfl, rfl⟩
    · simp [Memory.cut, before]
    · exact untag_link fun c hc => (hmem c (by rw [hl]; simp [hc])).2
    · exact hr₁.congr fun _ _ => rfl
  · rw [concat_eq_append] at hl hl₁ ⊢
    have hc : c.addr ≠ 0 := (hmem c (by rw [hl]; simp)).1
    obtain ⟨hl₂, hheap, -⟩ := segment_append.1 hl₁
    -- the blocks of a chain have different addresses
    have hne : ∀ c' ∈ l ++ r, c'.addr ≠ c.addr := by
      have hnodup : (g.pending.map Block.addr).Nodup := by
        refine hv.nodup_addr.sublist ?_
        rw [Allocations.blocks, map_append]
        exact sublist_append_left _ _
      rw [hl, append_assoc, map_append, singleton_append, map_cons,
        nodup_middle, nodup_cons] at hnodup
      intro c' hc' heq
      apply hnodup.1
      rw [← heq, ← map_append]
      exact mem_map_of_mem (by simp only [mem_append, mem_cons] at hc' ⊢; tauto)
    set m₁ := m.setHeap c.addr (some ⟨initialPrimaryValue, 0, link 0 r, c.size⟩) with hm₁
    have hother : ∀ c' ∈ l ++ r, m₁.heap c'.addr = m.heap c'.addr := fun c' hc' =>
      update_of_ne (hne c' hc') _ _
    refine ⟨m₁, ?_, ?_, ?_, ?_, rfl⟩
    · rw [before_append, Memory.cut, if_neg hc, Memory.setNext, hheap]
      rfl
    · have hslot := h.slot
      rw [hl] at hslot
      rw [show m₁.slot = m.slot from rfl, hslot]
      cases l <;> rfl
    · rw [append_assoc, segment_append, segment_append]
      refine ⟨hl₂.congr fun c' hc' => hother c' (mem_append_left _ hc'), ⟨?_, trivial⟩,
        hr₁.congr fun c' hc' => hother c' (mem_append_right _ hc')⟩
      exact update_self _ _ _
    · intro p hp
      exact update_of_ne (hp c (by simp)).symm _ _

theorem outside_iff {this : Word} (hfit : b.addr.toNat + b.size.toNat < 2 ^ 32) :
    (this < b.addr ∨ b.addr + b.size ≤ this) ↔
      ¬ (b.addr.toNat ≤ this.toNat ∧ this.toNat < b.addr.toNat + b.size.toNat) := by
  rw [BitVec.lt_def, BitVec.le_def, BitVec.toNat_add, Nat.mod_eq_of_lt hfit]
  omega

theorem findBlock_eq {this : Word}
    (hb : b.addr.toNat ≤ this.toNat ∧ this.toNat < b.addr.toNat + b.size.toNat) :
    ∀ {l : List Block} {fuel : ℕ} (prev : Word), Segment m 0 (l ++ b :: r) → l.length < fuel →
      (∀ c ∈ l ++ b :: r, c.addr ≠ 0 ∧ c.addr &&& 1 = 0 ∧
        c.addr.toNat + c.size.toNat < 2 ^ 32) →
      (∀ c ∈ l, ¬ (c.addr.toNat ≤ this.toNat ∧ this.toNat < c.addr.toNat + c.size.toNat)) →
      m.findBlock this fuel (top (l ++ b :: r)) prev =
        some (b.addr, if l = [] then prev else before l) := by
  intro l
  induction l with
  | nil =>
    intro fuel prev hchain hfuel hplace _
    obtain ⟨fuel, rfl⟩ := Nat.exists_eq_add_of_lt hfuel
    obtain ⟨h0, -, hfit⟩ := hplace b (by simp)
    have hin : ¬ (this < b.addr ∨ b.addr + b.size ≤ this) := by
      rw [outside_iff hfit, not_not]
      exact hb
    rw [nil_append, top, findBlock, if_neg h0, hchain.1, Option.bind_some, if_neg hin,
      if_pos rfl]
  | cons c l ih =>
    intro fuel prev hchain hfuel hplace hout
    obtain ⟨fuel, rfl⟩ : ∃ n, fuel = n + 1 := ⟨fuel - 1, by simp at hfuel; omega⟩
    rw [length_cons] at hfuel
    obtain ⟨h0, -, hfit⟩ := hplace c (by simp)
    have hskip : this < c.addr ∨ c.addr + c.size ≤ this :=
      (outside_iff hfit).2 (hout c mem_cons_self)
    have hnext : untag (link 0 (l ++ b :: r)) = top (l ++ b :: r) :=
      untag_link fun c' hc' => (hplace c' (mem_cons_of_mem _ hc')).2.1
    rw [cons_append] at hchain
    rw [cons_append, top, findBlock, if_neg h0, hchain.1, Option.bind_some, if_pos hskip,
      hnext, ih c.addr hchain.2 (by omega) (fun c' hc' => hplace c' (mem_cons_of_mem _ hc'))
        fun c' hc' => hout c' (mem_cons_of_mem _ hc')]
    rw [if_neg (cons_ne_nil c l), before]

end Chain

/-! ### The calls -/

section Calls

open Allocations (mem_blocks_of_pending mem_blocks_of_attached)

variable {m : Memory} {g : Allocations} {b : Block} {l r : List Block} {this size ptr : Word}

theorem Allocations.Valid.notMem (hv : g.Valid) (hl : g.pending = l ++ b :: r) :
    b ∉ l ∧ b ∉ r := by
  have hnodup := (nodup_append'.1 hv.nodup).1
  rw [hl, nodup_middle, nodup_cons, mem_append, not_or] at hnodup
  exact hnodup.1

theorem Allocations.Valid.erase_eq (hv : g.Valid) (hl : g.pending = l ++ b :: r) :
    g.pending.erase b = l ++ r := by
  rw [hl, erase_append_right _ (hv.notMem hl).1, erase_cons_head]

variable {c : Block}

theorem Allocations.Valid.addr_ne (hv : g.Valid) (hl : g.pending = l ++ b :: r) (hc : c ∈ l ++ r) :
    c.addr ≠ b.addr := by
  intro heq
  have hmem : c ∈ g.pending := by
    rw [hl, mem_append, mem_cons]
    rw [mem_append] at hc
    tauto
  have hb : b ∈ g.pending := by simp [hl]
  obtain rfl := hv.eq_of_addr (mem_blocks_of_pending hmem) (mem_blocks_of_pending hb) heq
  obtain ⟨h1, h2⟩ := hv.notMem hl
  rcases mem_append.1 hc with h | h
  · exact h1 h
  · exact h2 h

theorem Allocations.Valid.attached_ne (hv : g.Valid) (hl : g.pending = l ++ b :: r)
    {e : Block × Word} (he : e ∈ g.attached) : e.1.addr ≠ b.addr ∧ ∀ c ∈ l, c.addr ≠ e.1.addr := by
  refine ⟨hv.ne_attached (by simp [hl]) he, fun c hc => (hv.ne_attached ?_ he).symm⟩
  rw [hl]
  exact mem_append_left _ hc

theorem Allocations.Valid.attach (hv : g.Valid) (hb : b ∈ g.pending) (hin : b.Contains this) :
    (g.attach b this).Valid := by
  have hperm : (g.attach b this).blocks.Perm g.blocks := by
    unfold Allocations.blocks Allocations.attach
    rw [map_cons]
    refine perm_middle.trans ?_
    rw [← cons_append]
    exact (perm_cons_erase hb).symm.append_right _
  constructor
  · exact fun c hc => hv.place c (hperm.mem_iff.1 hc)
  · exact hv.apart.perm hperm.symm Or.symm
  · intro e he
    rcases mem_cons.1 he with rfl | he
    · exact hin
    · exact hv.inside e he

theorem Allocations.Valid.remove (hv : g.Valid) (b : Block) : (g.remove b).Valid := by
  have hsub : (g.remove b).blocks.Sublist g.blocks :=
    (erase_sublist (a := b) (l := g.pending)).append_right _
  exact ⟨fun c hc => hv.place c (hsub.subset hc), hv.apart.sublist hsub, hv.inside⟩

theorem Allocations.Valid.push (hv : g.Valid) (hnew : g.IsNew b) (h0 : b.addr ≠ 0)
    (hsize : sizeofBaseData.toNat ≤ b.size.toNat) : (g.push b).Valid := by
  refine ⟨fun c hc => ?_, ?_, hv.inside⟩
  · rcases mem_cons.1 hc with rfl | hc
    · exact ⟨h0, hnew.1, hsize, hnew.2.1⟩
    · exact hv.place c hc
  · exact pairwise_cons.2 ⟨hnew.2.2, hv.apart⟩

theorem Memory.Shows.operatorNew (h : m.Shows g) (hv : g.Valid)
    (hnew : g.IsNew ⟨ptr, size + sizeofBaseData⟩) (hptr : ptr ≠ 0)
    (hsize : size.toNat + sizeofBaseData.toNat < 2 ^ 32) :
    ∃ m', m.operatorNew size ptr = some m' ∧ m'.Shows (g.push ⟨ptr, size + sizeofBaseData⟩) ∧
      (g.push ⟨ptr, size + sizeofBaseData⟩).Valid := by
  have hnat : (size + sizeofBaseData).toNat = size.toNat + sizeofBaseData.toNat := by
    rw [BitVec.toNat_add, Nat.mod_eq_of_lt hsize]
  have hvalid := hv.push hnew hptr (by rw [hnat]; exact Nat.le_add_left _ _)
  have hfresh : ∀ c ∈ g.blocks, c.addr ≠ ptr := by
    intro c hc heq
    have hnodup := hvalid.nodup_addr
    have hblocks : (g.push ⟨ptr, size + sizeofBaseData⟩).blocks =
        ⟨ptr, size + sizeofBaseData⟩ :: g.blocks := rfl
    rw [hblocks, map_cons, nodup_cons] at hnodup
    exact hnodup.1 (mem_map.2 ⟨c, hc, heq⟩)
  have hnext : (if m.slot ≠ 0 then tag m.slot else 0) = link 0 g.pending := by
    rw [h.slot]
    cases hp : g.pending with
    | nil => rfl
    | cons c rest =>
      have hc : c.addr ≠ 0 := (hv.place c (mem_blocks_of_pending (by simp [hp]))).1
      rw [if_pos (show top (c :: rest) ≠ 0 from hc)]
      rfl
  refine ⟨_, by rw [Memory.operatorNew, if_neg hptr, if_neg (by omega), hnext], ?_, hvalid⟩
  constructor
  · rfl
  · refine ⟨update_self _ _ _, h.chain.congr fun c hc => ?_⟩
    exact update_of_ne (hfresh c (mem_blocks_of_pending hc)) _ _
  · intro e he
    obtain ⟨h1, h2⟩ := h.attached e he
    refine ⟨?_, h2⟩
    rw [← h1]
    exact update_of_ne (hfresh e.1 (mem_blocks_of_attached he)) _ _
  · intro p hp
    have hne : p ≠ ptr := (hp _ mem_cons_self).symm
    exact (update_of_ne hne _ _).trans (h.free p fun c hc => hp c (mem_cons_of_mem _ hc))
  · exact h.unbuilt

/-- **The constructor** attaches the block that the atom is in, and cuts it out of the chain. -/
theorem Memory.Shows.construct (h : m.Shows g) (hv : g.Valid) (hb : b ∈ g.pending)
    (hin : b.Contains this) : ∃ m', m.construct this = some m' ∧ m'.Shows (g.attach b this) := by
  obtain ⟨l, r, hl⟩ := append_of_mem hb
  have hinside : b.addr.toNat ≤ this.toNat ∧ this.toNat < b.addr.toNat + b.size.toNat :=
    ⟨by have := hin.1; omega, hin.2⟩
  have hchain := h.chain
  rw [hl] at hchain
  have hfind : m.findBlock this (2 ^ 32) m.slot 0 = some (b.addr, before l) := by
    rw [h.slot, hl, findBlock_eq hinside 0 hchain]
    · by_cases hnil : l = []
      · rw [if_pos hnil, hnil]
        rfl
      · rw [if_neg hnil]
    · have hlt := hv.length_lt
      rw [hl, length_append] at hlt
      omega
    · intro c hc
      obtain ⟨h0, heven, -, hfit⟩ := hv.place c (mem_blocks_of_pending (hl ▸ hc))
      exact ⟨h0, heven, hfit⟩
    · intro c hc hcin
      have hcmem : c ∈ g.pending := by rw [hl]; exact mem_append_left _ hc
      obtain rfl := hv.eq_of_mem (mem_blocks_of_pending hcmem) (mem_blocks_of_pending hb) hcin hinside
      exact (hv.notMem hl).1 hc
  obtain ⟨-, hheap, -⟩ := segment_append.1 hchain
  obtain ⟨m₁, hcut, hslot, hseg, hother, hbase⟩ := h.cut hv hl
  refine ⟨{ m₁.setHeap b.addr (some ⟨initialPrimaryValue, 0, this, 0⟩) with
      base := update m₁.base this (some b.addr) }, ?_, ?_⟩
  · rw [Memory.construct, hfind, Option.bind_some, hheap, Option.bind_some, hcut]
    rfl
  have herase : (g.attach b this).pending = l ++ r := hv.erase_eq hl
  constructor
  · rw [herase]
    exact hslot
  · rw [herase]
    exact hseg.congr fun c hc => update_of_ne (hv.addr_ne hl hc) _ _
  · intro e he
    rcases mem_cons.1 he with rfl | he
    · exact ⟨update_self _ _ _, update_self _ _ _⟩
    · obtain ⟨h1, h2⟩ := h.attached e he
      obtain ⟨hne, hnel⟩ := hv.attached_ne hl he
      constructor
      · rw [← h1, ← hother e.1.addr hnel]
        exact update_of_ne hne _ _
      · -- an atom is in one block only
        have hatom : e.2 ≠ this := by
          intro heq
          obtain ⟨hlo, hhi⟩ := hv.inside e he
          rw [heq] at hlo hhi
          apply hne
          rw [hv.eq_of_mem (mem_blocks_of_attached he) (mem_blocks_of_pending hb)
            ⟨by omega, hhi⟩ hinside]
        rw [← h2, ← hbase]
        exact update_of_ne hatom _ _
  · intro p hp
    have hpb : b.addr ≠ p := hp b (mem_append_right _ (by simp [Allocations.attach]))
    have hpl : ∀ c ∈ l ++ r, c.addr ≠ p := fun c hc =>
      hp c (mem_append_left _ (herase ▸ hc))
    refine (update_of_ne hpb.symm _ _).trans ?_
    rw [hother p fun c hc => hpl c (mem_append_left _ hc)]
    refine h.free p fun c hc => ?_
    rcases mem_append.1 hc with hc | hc
    · rw [hl, mem_append, mem_cons] at hc
      rcases hc with hc | rfl | hc
      · exact hpl c (mem_append_left _ hc)
      · exact hpb
      · exact hpl c (mem_append_right _ hc)
    · exact hp c (mem_append_right _ (mem_cons_of_mem _ hc))
  · intro a ha
    have hne : a ≠ this := (ha _ mem_cons_self).symm
    refine (update_of_ne hne _ _).trans ?_
    rw [hbase]
    exact h.unbuilt a fun e he => ha e (mem_cons_of_mem _ he)

theorem Memory.Shows.remove (h : m.Shows g) (hv : g.Valid) (hl : g.pending = l ++ b :: r)
    (hunlink : m.unlink b.addr = m.cut (before l) (link 0 r)) :
    ∃ m', (m.unlink b.addr).map (fun m => m.setHeap b.addr none) = some m' ∧
      m'.Shows (g.remove b) := by
  obtain ⟨m₁, hcut, hslot, hseg, hother, hbase⟩ := h.cut hv hl
  have herase : (g.remove b).pending = l ++ r := hv.erase_eq hl
  refine ⟨m₁.setHeap b.addr none, by rw [hunlink, hcut, Option.map_some], ?_⟩
  constructor
  · rw [herase]
    exact hslot
  · rw [herase]
    exact hseg.congr fun c hc => update_of_ne (hv.addr_ne hl hc) _ _
  · intro e he
    obtain ⟨h1, h2⟩ := h.attached e he
    obtain ⟨hne, hnel⟩ := hv.attached_ne hl he
    refine ⟨?_, (congrFun hbase e.2).trans h2⟩
    rw [← h1, ← hother e.1.addr hnel]
    exact update_of_ne hne _ _
  · intro p hp
    by_cases hpb : p = b.addr
    · rw [hpb]
      exact update_self _ _ _
    · have hpl : ∀ c ∈ l ++ r, c.addr ≠ p := fun c hc =>
        hp c (mem_append_left _ (herase ▸ hc))
      refine (update_of_ne hpb _ _).trans ?_
      rw [hother p fun c hc => hpl c (mem_append_left _ hc)]
      refine h.free p fun c hc => ?_
      rcases mem_append.1 hc with hc | hc
      · rw [hl, mem_append, mem_cons] at hc
        rcases hc with hc | rfl | hc
        · exact hpl c (mem_append_left _ hc)
        · exact fun heq => hpb heq.symm
        · exact hpl c (mem_append_right _ hc)
      · exact hp c (mem_append_right _ hc)
  · intro a ha
    exact (congrFun hbase a).trans (h.unbuilt a ha)

theorem Allocations.Valid.ptr_ne_zero (hv : g.Valid) (hb : b ∈ g.blocks) :
    b.addr + sizeofBaseData ≠ 0 := by
  intro heq
  obtain ⟨-, -, hsize, hfit⟩ := hv.place b hb
  have hnat : (b.addr + sizeofBaseData).toNat = b.addr.toNat + sizeofBaseData.toNat := by
    rw [BitVec.toNat_add, Nat.mod_eq_of_lt (by omega)]
  have h16 : sizeofBaseData.toNat = 16 := rfl
  rw [heq] at hnat
  have hzero : (0 : Word).toNat = 0 := rfl
  omega

section

variable (h : m.Shows g) (hv : g.Valid)
include h hv

theorem Memory.Shows.operatorDelete_eq (hl : g.pending = l ++ b :: r) :
    m.operatorDelete (b.addr + sizeofBaseData) size =
      if link 0 r ≠ 0 then m.deleteImpl (link 0 r) size
      else (m.unlink b.addr).map fun m => m.setHeap b.addr none := by
  have hchain := h.chain
  rw [hl] at hchain
  obtain ⟨-, hheap, -⟩ := segment_append.1 hchain
  have hb : b ∈ g.blocks := mem_blocks_of_pending (by simp [hl])
  rw [Memory.operatorDelete, if_neg (hv.ptr_ne_zero hb), BitVec.add_sub_cancel]
  simp only [hheap, Option.bind_some]

/-- **The only block** is unlinked from the thread slot, and the older of two by the newer one. -/
theorem Memory.Shows.operatorDelete (hl : g.pending = l ++ [b]) (hshort : l.length ≤ 1) :
    ∃ m', m.operatorDelete (b.addr + sizeofBaseData) size = some m' ∧ m'.Shows (g.remove b) := by
  rw [h.operatorDelete_eq hv hl, if_neg (by exact fun h => h rfl)]
  refine h.remove hv hl ?_
  have hchain := h.chain
  have hslot := h.slot
  rw [hl] at hchain hslot
  cases l with
  | nil =>
    have hslot' : m.slot = b.addr := hslot
    rw [Memory.unlink, if_pos hslot', hchain.1]
    rfl
  | cons c l =>
    obtain rfl : l = [] := by
      rw [length_cons] at hshort
      exact length_eq_zero_iff.1 (by omega)
    have hne : c.addr ≠ b.addr := hv.addr_ne hl (by simp)
    have hb : b.addr &&& 1 = 0 := (hv.place b (mem_blocks_of_pending (by simp [hl]))).2.1
    have hc : c.addr ≠ 0 := (hv.place c (mem_blocks_of_pending (by simp [hl]))).1
    have hslot' : m.slot = c.addr := hslot
    have hheap : m.heap c.addr = some ⟨initialPrimaryValue, 0, tag b.addr, c.size⟩ := hchain.1
    have hheap' : m.heap b.addr = some ⟨initialPrimaryValue, 0, 0, b.size⟩ := hchain.2.1
    rw [Memory.unlink, hslot', if_neg hne, show (2 ^ 32 : ℕ) = 4294967295 + 1 from rfl,
      Memory.unlinkFrom, hheap, Option.bind_some]
    simp only [tag_ne_zero, if_false, untag_tag hb, if_true, hheap', Option.bind_some]
    rw [show before [c] = c.addr from rfl, Memory.cut, if_neg hc]
    rfl

/-- **A block with an older one** is taken for one with an atom, at the tagged link. -/
theorem Memory.Shows.operatorDelete_newer (hl : g.pending = l ++ b :: c :: r) :
    m.operatorDelete (b.addr + sizeofBaseData) size = none := by
  have hc : c ∈ g.pending := by simp [hl]
  obtain ⟨-, heven, hsize, -⟩ := hv.place c (mem_blocks_of_pending hc)
  have hword : link 0 (c :: r) = tag c.addr := rfl
  have hbase : m.base (tag c.addr) = none := by
    refine h.unbuilt _ fun e he heq => ?_
    -- an atom there would be in the block that has none
    have h16 : sizeofBaseData.toNat = 16 := rfl
    obtain ⟨hlo, hhi⟩ := hv.inside e he
    rw [heq] at hlo hhi
    refine hv.ne_attached hc he (congrArg Block.addr ?_)
    refine hv.eq_of_mem (mem_blocks_of_attached he) (mem_blocks_of_pending hc) ⟨by omega, hhi⟩ ?_
    rw [toNat_tag heven]
    omega
  rw [h.operatorDelete_eq hv hl, hword, if_pos (tag_ne_zero _), Memory.deleteImpl, hbase]
  rfl

/-- **A block with two newer ones** is searched for at the tagged link of the first. -/
theorem Memory.Shows.operatorDelete_third {c' : Block} (hl : g.pending = c :: c' :: l ++ [b]) :
    m.operatorDelete (b.addr + sizeofBaseData) size = none := by
  have hchain := h.chain
  have hslot := h.slot
  rw [hl] at hchain hslot
  have hc' : c' ∈ g.pending := by simp [hl]
  have heven := (hv.place c' (mem_blocks_of_pending hc')).2.1
  have hne : c.addr ≠ b.addr := hv.addr_ne hl (by simp)
  have hne' : c'.addr ≠ b.addr := hv.addr_ne hl (by simp)
  have hheap : m.heap c.addr = some ⟨initialPrimaryValue, 0, tag c'.addr, c.size⟩ := hchain.1
  have hodd : m.heap (tag c'.addr) = none := by
    refine h.free _ fun e he heq => ?_
    have h0 := (hv.place e he).2.1
    rw [heq, tag_and_one] at h0
    exact absurd h0 (by decide)
  have hslot' : m.slot = c.addr := hslot
  rw [h.operatorDelete_eq hv hl, if_neg (by exact fun h => h rfl), Memory.unlink, hslot',
    if_neg hne, show (2 ^ 32 : ℕ) = 4294967294 + 1 + 1 from rfl, Memory.unlinkFrom, hheap,
    Option.bind_some]
  simp only [tag_ne_zero, if_false, untag_tag heven, hne']
  rw [Memory.unlinkFrom, hodd]
  rfl

end

end Calls

/-! ### Runs -/

open Allocations (mem_blocks_of_pending)

/-- **The chain is exact**: nothing went wrong, and the memory is that of the allocations. -/
def Exact (s : Thread) : Prop := ∃ m, s.memory = some m ∧ m.Shows s.allocations

/-- The chain is exact, of blocks that are apart. -/
def Inv (s : Thread) : Prop := Exact s ∧ s.allocations.Valid

variable {s s' : Thread} {a : Call}

theorem Inv.start : Inv Thread.start := by
  refine ⟨⟨_, rfl, rfl, trivial, nofun, fun _ _ => rfl, fun _ _ => rfl⟩, ?_⟩
  exact ⟨nofun, List.Pairwise.nil, nofun⟩

theorem find_eq_some {g : Allocations} {ptr : Word} {b : Block}
    (h : (g.pending.find? fun b => b.addr + sizeofBaseData = ptr) = some b) :
    b ∈ g.pending ∧ b.addr + sizeofBaseData = ptr :=
  ⟨mem_of_find?_eq_some h, by simpa using List.find?_some h⟩

/-- **A step keeps the chain exact** where it does not go wrong. -/
theorem Inv.step (h : Inv s) (hs : step s a = some s') (ho : Observes s a) : Inv s' := by
  obtain ⟨⟨m, hm, hshows⟩, hv⟩ := h
  cases a with
  | new size ptr =>
    simp only [SAtom.step, hm, Option.bind_some] at hs
    by_cases hptr : ptr = 0
    · rw [if_pos hptr, Memory.operatorNew, if_pos hptr] at hs
      obtain ⟨⟩ := hs
      exact ⟨⟨m, rfl, hshows⟩, hv⟩
    · rw [if_neg hptr] at hs
      obtain ⟨hnew, hs⟩ := Option.ite_none_right_eq_some.1 hs
      obtain ⟨⟩ := hs
      obtain ⟨m', hm', hshows', hv'⟩ := hshows.operatorNew hv hnew hptr (ho.resolve_left hptr)
      exact ⟨⟨m', hm', hshows'⟩, hv'⟩
  | construct this =>
    simp only [SAtom.step, hm, Option.bind_some] at hs
    obtain ⟨b, hfind, rfl⟩ := Option.map_eq_some_iff.1 hs
    have hb := mem_of_find?_eq_some hfind
    have hin : b.Contains this := by simpa using List.find?_some hfind
    exact ⟨hshows.construct hv hb hin, hv.attach hb hin⟩
  | delete ptr size =>
    simp only [SAtom.step, hm, Option.bind_some] at hs
    obtain ⟨b, hfind, rfl⟩ := Option.map_eq_some_iff.1 hs
    obtain ⟨hb, rfl⟩ := find_eq_some hfind
    obtain ⟨hshort, hlast⟩ := ho
    refine ⟨?_, hv.remove b⟩
    -- the block is the last one of the chain
    obtain ⟨l, c, hl⟩ : ∃ l c, s.allocations.pending = l ++ [c] :=
      ⟨_, _, (dropLast_append_getLast (ne_nil_of_mem hb)).symm⟩
    have hc : c ∈ s.allocations.pending := by simp [hl]
    have haddr := hlast c (by rw [hl, List.getLast?_concat]; rfl)
    obtain rfl := hv.eq_of_addr (mem_blocks_of_pending hc) (mem_blocks_of_pending hb)
      (by simpa using haddr)
    refine hshows.operatorDelete hv hl ?_
    rw [hl, length_append, length_singleton] at hshort
    omega

theorem Inv.observes (h : Inv s) (hs : SAtom.step s a = some s') (hex : Exact s') :
    Observes s a := by
  obtain ⟨⟨m, hm, hshows⟩, hv⟩ := h
  obtain ⟨m', hm', -⟩ := hex
  cases a with
  | new size ptr =>
    simp only [SAtom.step, hm, Option.bind_some] at hs
    by_cases hptr : ptr = 0
    · exact .inl hptr
    · refine .inr ?_
      rw [if_neg hptr] at hs
      obtain ⟨hnew, hs⟩ := Option.ite_none_right_eq_some.1 hs
      obtain ⟨⟩ := hs
      by_contra hlarge
      have hwrap : (size + sizeofBaseData).toNat < sizeofBaseData.toNat := by
        rw [BitVec.toNat_add]
        omega
      rw [Memory.operatorNew, if_neg hptr, if_pos hwrap] at hm'
      cases hm'
  | construct this => trivial
  | delete ptr size =>
    simp only [SAtom.step, hm, Option.bind_some] at hs
    obtain ⟨b, hfind, rfl⟩ := Option.map_eq_some_iff.1 hs
    obtain ⟨hb, rfl⟩ := find_eq_some hfind
    obtain ⟨l, r, hl⟩ := append_of_mem hb
    cases r with
    | cons c r =>
      rw [hshows.operatorDelete_newer hv hl] at hm'
      cases hm'
    | nil =>
      rcases l with _ | ⟨c, _ | ⟨c', l⟩⟩
      · exact ⟨by rw [hl]; exact Nat.le_succ 1, by rw [hl]; rintro _ ⟨⟩; rfl⟩
      · exact ⟨by rw [hl]; exact Nat.le_refl 2, by rw [hl]; rintro _ ⟨⟩; rfl⟩
      · rw [hshows.operatorDelete_third hv hl] at hm'
        cases hm'

/-- **The chain is exact in every state of a run** exactly if every step observes. -/
theorem exact_iff (calls : List Call) :
    AllStates SAtom.step Exact Thread.start calls ↔
      AllSteps SAtom.step Observes Thread.start calls :=
  allStates_iff_allSteps (fun _ h => h.1) (fun _ _ _ h hs ho => h.step hs ho)
    (fun _ _ _ h hs hex => h.observes hs hex) calls Thread.start Inv.start

/-- Two allocations, and the newer one deleted: the link to the older one is taken for its atom. -/
theorem delete_newer : ¬ AllStates SAtom.step Exact Thread.start
    [.new 8 0x1000, .new 8 0x2000, .delete 0x2010 8] := by
  rw [allStates_iff_allSteps (fun _ h => h.1) (fun _ _ _ h hs ho => Inv.step h hs ho)
    (fun _ _ _ h hs hex => h.observes hs hex) _ Thread.start Inv.start]
  intro h
  have h1 := (h _ rfl).2
  have h2 := (h1 _ rfl).2
  obtain ⟨-, hlast⟩ := (h2 _ rfl).1
  exact absurd (hlast ⟨0x1000, 24⟩ rfl) (by decide)

end OpenBinder.SAtom
