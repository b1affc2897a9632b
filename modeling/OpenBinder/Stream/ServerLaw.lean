import OpenBinder.Stream.Server

/-!
# What hostile transactions do

* `Placed.alloc`, `Placed.reAlloc`: the reply keeps within its block.
* `transact_safe_iff`: a transaction leads outside of a buffer exactly if it asks for almost 2 GB
  or more, or writes to a storage.
-/

namespace OpenBinder

open Lib

/-- **A parcel in its block**: its length and the bytes it counts on are not more than there
are. -/
structure Storage.Placed (p : Storage) : Prop where
  length_le : p.length ≤ p.data.size
  avail_le : p.avail ≤ p.data.size
  size_lt : p.data.size < 2 ^ 31

namespace Storage.Placed

variable {p : Storage} {len : ℤ}

/-- **`Alloc`** of less than 2 GB stays in the block. What it gives is as large as it was asked
for, except that a negative length is no request. -/
theorem alloc (h : p.Placed) (malloc : Bool) (hlen : len < 2 ^ 31) :
    (p.alloc len malloc).2.Placed ∧ ((p.alloc len malloc).1 = true →
      len ≤ (p.alloc len malloc).2.avail ∧ (p.alloc len malloc).2.length = len) ∧
      (len ≤ 32 ∨ malloc = true → (p.alloc len malloc).1 = true) := by
  unfold Storage.alloc Storage.reserve
  by_cases hroom : p.data ≠ .null ∧ p.avail ≥ len
  · -- the block is used again
    obtain ⟨hdata, havail⟩ := hroom
    have hreset : p.reset.data = p.data := by
      unfold reset
      split <;> rfl
    have havail' : p.reset.avail = if p.data = .inline then 32 else p.avail := by
      unfold reset
      split <;> rfl
    have hle : len ≤ p.reset.avail ∧ p.reset.avail ≤ p.data.size := by
      rw [havail']
      have := h.avail_le
      by_cases hin : p.data = .inline
      · rw [hin] at this ⊢
        simp only [Block.size, if_true] at this ⊢
        omega
      · rw [if_neg hin]
        exact ⟨havail, this⟩
    simp only [if_pos (And.intro hdata havail), if_true]
    refine ⟨⟨?_, ?_, ?_⟩, fun _ => ⟨hle.1, trivial⟩, fun _ => ?_⟩
    · show len ≤ p.reset.data.size
      rw [hreset]
      exact hle.1.trans hle.2
    · show p.reset.avail ≤ p.reset.data.size
      rw [hreset]
      exact hle.2
    · show p.reset.data.size < _
      rw [hreset]
      exact h.size_lt
    · rw [hreset]
      exact decide_eq_true hdata
  · simp only [if_neg hroom]
    by_cases h32 : len ≤ 32
    · simp only [if_pos h32, if_true]
      exact ⟨⟨h32, h32, (by decide : (32 : ℤ) < 2 ^ 31)⟩, fun _ => ⟨le_rfl, trivial⟩,
        fun _ => by decide⟩
    · cases malloc with
      | true =>
        simp only [if_neg h32, if_true]
        exact ⟨⟨le_rfl, le_rfl, hlen⟩, fun _ => ⟨le_rfl, trivial⟩, fun _ => decide_eq_true Block.noConfusion⟩
      | false =>
        simp only [if_neg h32, Bool.false_eq_true, if_false]
        exact ⟨⟨(by decide : noMemory ≤ 0), (by decide : noMemory ≤ 0),
          (by decide : (0 : ℤ) < 2 ^ 31)⟩, fun hf => absurd hf Bool.false_ne_true,
          fun hc => absurd hc (by simp [h32])⟩

theorem reAlloc (h : p.Placed) (malloc : Bool) (hlen : len ≤ p.avail) :
    (p.reAlloc len malloc).2.Placed := by
  have havail := h.avail_le
  unfold Storage.reAlloc
  by_cases hneg : p.length < 0
  · rw [if_pos hneg]
    exact h
  · rw [if_neg hneg, if_neg (not_lt.2 hlen)]
    split
    · exact ⟨hlen.trans havail, havail, h.size_lt⟩
    · exact h

theorem touch (h : p.Placed) (offset length : ℤ) : (p.touch offset length).Placed :=
  ⟨h.length_le, h.avail_le, h.size_lt⟩

end Storage.Placed

theorem Reply.placed_answer {p : Storage} {answer : ReadResult} {size : ℤ} (h : p.Placed)
    (malloc : Bool) (h0 : 0 ≤ size) (hsize : size + 4 < 2 ^ 31)
    (hanswer : answer.data.length ≤ size) (havail : size + 4 ≤ p.avail) :
    (Reply.answer p answer malloc).storage.Placed := by
  have hamt : answer.amt.toInt ≤ size := by
    cases answer with
    | error code => exact (le_of_lt code.2).trans h0
    | bytes data =>
      have hlen : (data.length : ℤ) ≤ size := hanswer
      show (BitVec.ofNat 32 data.length).toInt ≤ size
      rw [BitVec.toInt_eq_toNat_bmod, BitVec.toNat_ofNat, Nat.mod_eq_of_lt (by omega),
        Int.bmod_eq_of_le] <;> omega
  apply (h.touch 0 4).reAlloc
  show _ ≤ p.avail
  split
  · rw [ssize_of_lt] <;> omega
  · omega

theorem Reply.placed_copy {r : Reply} (h : r.storage.Placed) (word : BitVec 32) (malloc : Bool) :
    (r.copy word malloc).storage.Placed := by
  have hp := (h.alloc malloc (by decide : (4 : ℤ) < 2 ^ 31)).1
  unfold Reply.copy
  cases hr : r.storage.alloc 4 malloc with
  | mk found p =>
    rw [hr] at hp
    cases found
    · exact hp
    · exact hp.touch 0 4

/-- **What is safe**: the object is called with a buffer inside of the reply or of the data that
was received, and the reply is not longer than its block. -/
structure Served.Safe {σ : Type} (r : Served σ) : Prop where
  inside : ∀ given ∈ r.given, given.range.Inside
  length_le : ∀ reply ∈ r.reply, reply.storage.length ≤ reply.storage.data.size

/-- What a transaction may ask for: a read that gets a reply leaves room for the count in front
of less than 2 GB, and a write to a storage has no position. -/
def Request.Sized {σ : Type} (request : Request σ) (data : Option (List Byte))
    (reply : Option Reply) : Prop :=
  let bytes := data.getD []
  match request with
  | .read _ => 4 ≤ bytes.length → reply.isSome → (wordFrom bytes 0).toInt + 4 < 2 ^ 31
  | .readAt _ => 12 ≤ bytes.length → reply.isSome → (wordFrom bytes 8).toNat + 4 < 2 ^ 31
  | .write _ | .writeFlags _ => True
  | .writeAt _ => bytes.length < 8

section Transact

variable {σ : Type} {s : σ} {data : Option (List Byte)} {reply : Option Reply} {around : Around}

theorem length_le_copy (h : ∀ r ∈ reply, r.storage.Placed) (word : BitVec 32) (malloc : Bool) :
    ∀ r ∈ reply.map (·.copy word malloc), r.storage.length ≤ r.storage.data.size := by
  intro r hr
  obtain ⟨r', hr', rfl⟩ := Option.map_eq_some_iff.1 hr
  exact (Reply.placed_copy (h r' hr') word malloc).length_le

variable {p : Storage}

/-- **The block for a read**: what is behind the count is inside of it, unless the request was
taken for a small one. That one is never refused. -/
theorem alloc_for_read {size : ℤ} (h : p.Placed) (malloc : Bool) (h0 : 0 < size)
    (hlt : size < 2 ^ 32) :
    let r := p.alloc (ssize (size + 4)) malloc
    r.2.Placed ∧ (size + 4 < 2 ^ 31 → r.1 = true → size + 4 ≤ r.2.avail) ∧
      (2 ^ 31 ≤ size + 4 → r.1 = true) := by
  obtain ⟨hp, havail, hsmall⟩ := h.alloc malloc (ssize_lt (size + 4))
  refine ⟨hp, fun hle hr => ?_, fun hge => hsmall (.inl ?_)⟩
  · have := (havail hr).1
    rwa [ssize_of_lt (show -2 ^ 31 ≤ size + 4 by omega) hle] at this ⊢
  · rw [ssize_eq]
    omega

theorem inside_of_avail {size : ℤ} (h : p.Placed) (havail : size + 4 ≤ p.avail) :
    (⟨p.data.size, 4, size⟩ : Range).Inside := by
  intro _
  have hle := h.avail_le
  exact ⟨(by decide : (0 : ℤ) ≤ 4), by show 4 + size ≤ p.data.size; omega⟩

theorem safe_none {r : Served σ} (hgiven : r.given = none)
    (hreply : ∀ reply ∈ r.reply, reply.storage.length ≤ reply.storage.data.size) : r.Safe :=
  ⟨fun _ hg => absurd (hgiven ▸ hg) (Option.not_mem_none _), hreply⟩

/-- **A read into the block** is safe if the block was made as large as it was asked for. -/
theorem safe_answer_iff {size : ℤ} {answer : ReadResult} {status : BitVec 32} {malloc : Bool}
    (h : p.Placed) (h0 : 0 < size) (hanswer : answer.data.length ≤ size)
    (havail : size + 4 < 2 ^ 31 → size + 4 ≤ p.avail) :
    (⟨status, some (.answer p answer malloc), some (.destination ⟨p.data.size, 4, size⟩), s⟩ :
      Served σ).Safe ↔ size + 4 < 2 ^ 31 := by
  constructor
  · intro hsafe
    have hle : 4 + size ≤ p.data.size := (hsafe.inside _ rfl h0).2
    have hlt := h.size_lt
    omega
  · intro hsize
    refine ⟨fun given hg => ?_, fun reply hr => ?_⟩
    · obtain ⟨⟩ := hg
      exact inside_of_avail h (havail hsize)
    · obtain ⟨⟩ := hr
      exact (Reply.placed_answer h malloc (le_of_lt h0) hsize hanswer (havail hsize)).length_le

theorem safe_read (input : IByteInput σ) (h : ∀ r ∈ reply, r.storage.Placed) :
    (BnByteInput.transact input s data reply around).Safe ↔
      (Request.read input).Sized data reply := by
  have hlength : ∀ r ∈ reply, r.storage.length ≤ r.storage.data.size :=
    fun r hr => (h r hr).length_le
  unfold BnByteInput.transact Request.Sized
  dsimp only
  by_cases h4 : 4 ≤ (data.getD []).length
  · rw [if_pos h4]
    cases reply with
    | none =>
      exact iff_of_true (safe_none rfl hlength) fun _ hr => absurd hr Bool.false_ne_true
    | some r =>
      have hupper := BitVec.toInt_lt (x := wordFrom (data.getD []) 0)
      generalize (wordFrom (data.getD []) 0).toInt = size at hupper ⊢
      simp only [h4, Option.isSome_some, true_imp_iff]
      by_cases h0 : 0 < size
      · rw [if_pos h0]
        obtain ⟨hp, hgood, hbad⟩ := alloc_for_read (h r rfl) around.malloc h0 (by omega)
        generalize r.storage.alloc (ssize (size + 4)) around.malloc = made at hp hgood hbad ⊢
        obtain ⟨found, p⟩ := made
        cases found with
        | false =>
          refine iff_of_true (safe_none rfl fun reply hr => ?_) ?_
          · obtain ⟨⟩ := hr
            exact hp.length_le
          · by_contra hlt
            exact Bool.false_ne_true (hbad (by omega))
        | true =>
          have hle : ((input.readV s size.toNat (if 8 ≤ (data.getD []).length then
              wordFrom (data.getD []) 4 else 0)).1.data.length : ℤ) ≤ size :=
            Int.le_trans (Int.ofNat_le.2 (input.readV_le ..)) (by omega)
          exact safe_answer_iff hp h0 hle fun hlt => hgood hlt rfl
      · rw [if_neg h0]
        exact iff_of_true (safe_none rfl hlength) (by omega)
  · rw [if_neg h4]
    exact iff_of_true (safe_none rfl hlength) fun hc => absurd hc h4

theorem safe_readAt (storage : IStorage σ) (h : ∀ r ∈ reply, r.storage.Placed) :
    (BnStorage.transactReadAt storage s data reply around).Safe ↔
      (Request.readAt storage).Sized data reply := by
  have hlength : ∀ r ∈ reply, r.storage.length ≤ r.storage.data.size :=
    fun r hr => (h r hr).length_le
  unfold BnStorage.transactReadAt Request.Sized
  dsimp only
  by_cases h12 : 12 ≤ (data.getD []).length
  · rw [if_pos h12]
    cases reply with
    | none =>
      exact iff_of_true (safe_none rfl hlength) fun _ hr => absurd hr Bool.false_ne_true
    | some r =>
      have hupper := (wordFrom (data.getD []) 8).isLt
      generalize (wordFrom (data.getD []) 8).toNat = size at hupper ⊢
      simp only [h12, Option.isSome_some, true_imp_iff]
      by_cases h0 : 0 < size
      · obtain ⟨hp, hgood, hbad⟩ := alloc_for_read (h r rfl) around.malloc
          (by omega : (0 : ℤ) < size) (by omega)
        generalize r.storage.alloc (ssize (size + 4)) around.malloc = made at hp hgood hbad ⊢
        obtain ⟨found, p⟩ := made
        cases found with
        | false =>
          refine iff_of_true (safe_none rfl fun reply hr => ?_) ?_
          · obtain ⟨⟩ := hr
            exact hp.length_le
          · by_contra hlt
            exact Bool.false_ne_true (hbad (by omega))
        | true =>
          simp only [if_true, if_pos h0]
          have hle : ((storage.readAtV s (positionOf (data.getD [])) size).1.data.length : ℤ) ≤
              size := Int.ofNat_le.2 (storage.readAtV_le ..)
          rw [safe_answer_iff hp (by omega) hle fun hlt => hgood hlt rfl]
          omega
      · -- nothing is asked for: the count is all there is
        obtain rfl : size = 0 := by omega
        obtain ⟨hp, hgood, -⟩ := (h r rfl).alloc around.malloc (ssize_lt ((0 : ℕ) + 4))
        generalize r.storage.alloc (ssize ((0 : ℕ) + 4)) around.malloc = made at hp hgood ⊢
        obtain ⟨found, p⟩ := made
        refine iff_of_true (safe_none ?_ fun reply hr => ?_) (by decide)
        · cases found <;> rfl
        · cases found with
          | false =>
            obtain ⟨⟩ := hr
            exact hp.length_le
          | true =>
            obtain ⟨⟩ := hr
            exact (Reply.placed_answer hp _ le_rfl (by decide) le_rfl (hgood rfl).1).length_le
  · rw [if_neg h12]
    exact iff_of_true (safe_none rfl hlength) fun hc => absurd hc h12

theorem safe_write {result : BitVec 32} {length offset n : ℤ} {status : BitVec 32} {malloc : Bool}
    (h : ∀ r ∈ reply, r.storage.Placed) (h0 : 0 ≤ offset) (hle : offset + n ≤ length) :
    (⟨status, reply.map (·.copy result malloc), some (.source ⟨length, offset, n⟩), s⟩ :
      Served σ).Safe := by
  refine ⟨fun given hg => ?_, length_le_copy h _ _⟩
  obtain ⟨⟩ := hg
  exact fun _ => ⟨h0, hle⟩

theorem safe_transactWrite (output : IByteOutput σ) (h : ∀ r ∈ reply, r.storage.Placed) :
    (BnByteOutput.transactWrite output s data reply around).Safe := by
  unfold BnByteOutput.transactWrite
  match data with
  | none | some [] => exact safe_none rfl (length_le_copy h _ _)
  | some (b :: bytes) => exact safe_write h le_rfl (by omega)

theorem safe_transactWriteFlags (output : IByteOutput σ) (h : ∀ r ∈ reply, r.storage.Placed) :
    (BnByteOutput.transactWriteFlags output s data reply around).Safe := by
  unfold BnByteOutput.transactWriteFlags
  dsimp only
  split
  · exact safe_write h (by decide) (by omega)
  · exact safe_none rfl (length_le_copy h _ _)

/-- A write at a position reads as many bytes behind the data as the position is longer than a
pointer. -/
theorem safe_writeAt (storage : IStorage σ) (h : ∀ r ∈ reply, r.storage.Placed) :
    (BnStorage.transactWriteAt storage s data reply around).Safe ↔
      (Request.writeAt storage).Sized data reply := by
  unfold BnStorage.transactWriteAt Request.Sized
  by_cases h8 : 8 ≤ (data.getD []).length
  · simp only [if_pos h8]
    refine iff_of_false (fun hsafe => ?_) (by omega)
    have hin : 8 + ((data.getD []).length - 4 : ℤ) ≤ (data.getD []).length :=
      (hsafe.inside _ rfl (by show (0 : ℤ) < (data.getD []).length - 4; omega)).2
    omega
  · simp only [if_neg h8]
    exact iff_of_true (safe_none rfl (length_le_copy h _ _)) (by omega)

end Transact

/-- **A hostile transaction** leads outside of a buffer exactly if it asks for more than there can
be, or writes to a storage. -/
theorem transact_safe_iff {σ : Type} (request : Request σ) (s : σ) (data : Option (List Byte))
    (reply : Option Reply) (around : Around) (h : ∀ r ∈ reply, r.storage.Placed) :
    (request.transact s data reply around).Safe ↔ request.Sized data reply := by
  cases request with
  | read input => exact safe_read input h
  | write output => exact iff_of_true (safe_transactWrite output h) trivial
  | writeFlags output => exact iff_of_true (safe_transactWriteFlags output h) trivial
  | readAt storage => exact safe_readAt storage h
  | writeAt storage => exact safe_writeAt storage h

/-- A stream at its end. -/
def IByteInput.ended : IByteInput Unit := ⟨fun s _ _ => (.bytes [], s), fun _ _ _ => Nat.zero_le _⟩

/-- A read of sixteen bytes into a new parcel. -/
theorem transact_safe_sixteen :
    ((Request.read .ended).transact () (some (wordBytes 16 ++ wordBytes 0)) (some ⟨.empty, []⟩)
      ⟨true, []⟩).Safe := by
  refine (transact_safe_iff (.read .ended) () _ (some ⟨.empty, []⟩) _ fun r hr => ?_).2
    fun _ _ => by decide
  obtain ⟨⟩ := hr
  exact ⟨le_rfl, le_rfl, by decide⟩

/-- A read of 2 GB is given the 32 bytes of a new parcel. -/
theorem not_transact_safe :
    ¬ ∀ (σ : Type) (request : Request σ) (s : σ) (data : Option (List Byte)) (reply : Option Reply)
        (around : Around), (∀ r ∈ reply, r.storage.Placed) →
          (request.transact s data reply around).Safe := by
  intro h
  have hsafe := h Unit (.read .ended) () (some (wordBytes 0x7fffffff ++ wordBytes 0))
    (some ⟨.empty, []⟩) ⟨true, []⟩ fun r hr => by
      obtain ⟨⟩ := hr
      exact ⟨le_rfl, le_rfl, by decide⟩
  exact absurd (hsafe.inside (.destination ⟨32, 4, 0x7fffffff⟩) (by rfl) (by decide)).2 (by decide)

end OpenBinder
