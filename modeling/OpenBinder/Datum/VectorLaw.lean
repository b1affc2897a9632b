import OpenBinder.Datum.StreamDatum

/-!
# Vectored reads and writes of a datum

* `sumIovec_eq`: the size of a vector, or that it is too large.
* `copied`: how much the loops move, and `lt_sum_copied`: more than they return, unless `Exact`.
* `readLocked_iff`, `writeLocked_iff`: when a call moves what it returns.
* `moves_iff`: when the operations of a stream do, with its position.
-/

namespace OpenBinder.BStreamDatum

open Lib List

variable {d : BStreamDatum} {s : Stream} {vector : List ℕ} {parts : List (List Byte)} {n : ℕ}
  {position : ℤ} {flags : BitVec 32}

/-! ### The loops -/

theorem sumLoop_eq (vector : List ℕ) : ∀ total : ℕ, total ≤ ssizeMax →
    sumLoop total vector =
      if total + vector.sum ≤ ssizeMax then ((total + vector.sum : ℕ) : ℤ) else outOfRange := by
  induction vector with
  | nil =>
    intro total h
    rw [sumLoop, sum_nil, Nat.add_zero, if_pos h]
  | cons len vector ih =>
    intro total h
    have hmax : ssizeMax = 2 ^ 31 - 1 := rfl
    rw [sumLoop, sum_cons]
    by_cases hlen : len > ssizeMax
    · rw [if_pos hlen, if_neg (by omega)]
    · rw [if_neg hlen]
      -- two numbers that are in range have a sum that shows by its sign whether it is
      by_cases hsum : total + len ≤ ssizeMax
      · have hs : ssize ((total : ℤ) + len) = ((total + len : ℕ) : ℤ) := by
          exact ssize_of_lt (by omega) (by omega)
        rw [hs, if_neg (by omega), ih _ hsum, Nat.add_assoc]
      · have hs : ssize ((total : ℤ) + len) < 0 := by
          rw [ssize_eq]
          omega
        rw [if_pos hs, if_neg (by omega)]

theorem sumIovec_eq (vector : List ℕ) :
    sumIovec vector = if vector.sum ≤ ssizeMax then (vector.sum : ℤ) else outOfRange := by
  have h := sumLoop_eq vector 0 (Nat.zero_le _)
  rwa [Nat.zero_add] at h

/-- How many bytes the loops move for each element. -/
def copied (n : ℕ) : List ℕ → List ℕ
  | [] => []
  | len :: vector => if len ≤ n then len :: copied n vector else n :: vector.map fun _ => 0

/-- The bytes from a position on, as far as there are some. -/
def slice (d : BStreamDatum) (position : ℤ) (n : ℕ) : List (Option Byte) :=
  (List.range n).map fun i : ℕ => d.byteAt (position + i)

@[simp] theorem length_slice : (d.slice position n).length = n := by simp [slice]

@[simp] theorem slice_zero : d.slice position 0 = [] := rfl

theorem slice_add (m n : ℕ) :
    d.slice position (m + n) = d.slice position m ++ d.slice (position + m) n := by
  simp [slice, range_add, add_assoc]

theorem readLoop_cons (len : ℕ) (vector : List ℕ) : d.readLoop n (len :: vector) position =
    if len ≤ n then d.slice position len :: d.readLoop n vector (position + len)
    else d.slice position n :: vector.map fun _ => [] := by
  rw [readLoop]
  by_cases h : len ≤ n
  · rw [if_pos h, if_pos (by omega)]
    rfl
  · rw [if_neg h, if_neg (by omega)]
    rfl

theorem lengths_readLoop (vector : List ℕ) : ∀ position,
    (d.readLoop n vector position).map List.length = copied n vector := by
  induction vector with
  | nil => intro position; rfl
  | cons len vector ih =>
    intro position
    rw [readLoop_cons, copied]
    by_cases h : len ≤ n
    · rw [if_pos h, if_pos h, map_cons, ih, length_slice]
    · rw [if_neg h, if_neg h, map_cons, length_slice, map_map]
      rfl

theorem flatten_readLoop (vector : List ℕ) : ∀ position,
    (d.readLoop n vector position).flatten = d.slice position (copied n vector).sum := by
  induction vector with
  | nil => intro position; rfl
  | cons len vector ih =>
    intro position
    rw [readLoop_cons, copied]
    by_cases h : len ≤ n
    · rw [if_pos h, if_pos h, flatten_cons, ih, sum_cons, slice_add]
    · rw [if_neg h, if_neg h]
      simp

theorem writeLoop_cons (bytes : List Byte) (parts : List (List Byte)) :
    writeLoop n (bytes :: parts) =
      if bytes.length ≤ n then bytes ++ writeLoop n parts else bytes.take n := by
  rw [writeLoop]
  by_cases h : bytes.length ≤ n
  · rw [if_pos h, if_pos (by omega)]
  · rw [if_neg h, if_neg (by omega), Int.toNat_natCast]

theorem length_writeLoop (parts : List (List Byte)) :
    (writeLoop n parts).length = (copied n (parts.map List.length)).sum := by
  induction parts with
  | nil => rfl
  | cons bytes parts ih =>
    rw [writeLoop_cons, map_cons, copied]
    by_cases h : bytes.length ≤ n
    · rw [if_pos h, if_pos h, length_append, ih, sum_cons]
    · rw [if_neg h, if_neg h, length_take, sum_cons, ← share_zero, sum_share]
      omega

/-- The loops move as much as they return: all that is asked for, or less than the first element that
is not empty. -/
def Exact (n : ℕ) (vector : List ℕ) : Prop :=
  n = vector.sum ∨ ∀ len ∈ vector.find? (0 < ·), n < len

theorem copied_of_le (vector : List ℕ) (h : vector.sum ≤ n) : copied n vector = vector := by
  induction vector with
  | nil => rfl
  | cons len vector ih =>
    rw [sum_cons] at h
    rw [copied, if_pos (by omega), ih (by omega)]

theorem writeLoop_of_le (parts : List (List Byte)) (h : (parts.map List.length).sum ≤ n) :
    writeLoop n parts = parts.flatten := by
  induction parts with
  | nil => rfl
  | cons bytes parts ih =>
    rw [map_cons, sum_cons] at h
    rw [writeLoop_cons, if_pos (by omega), ih (by omega), flatten_cons]

theorem copied_of_first (vector : List ℕ) (h : ∀ len ∈ vector.find? (0 < ·), n < len) :
    copied n vector = share vector n := by
  induction vector with
  | nil => rfl
  | cons len vector ih =>
    rw [copied, share]
    by_cases hlen : 0 < len
    · have hlt : n < len := h len (by simp [hlen])
      rw [if_neg (by omega), min_eq_right hlt.le, Nat.sub_eq_zero_of_le hlt.le, share_zero]
    · obtain rfl : len = 0 := by omega
      rw [if_pos (Nat.zero_le _), Nat.zero_min, Nat.sub_zero, ih (by simpa using h)]

theorem writeLoop_of_first (parts : List (List Byte))
    (h : ∀ len ∈ (parts.map List.length).find? (0 < ·), n < len) :
    writeLoop n parts = parts.flatten.take n := by
  induction parts with
  | nil => rw [writeLoop, flatten_nil, take_nil]
  | cons bytes parts ih =>
    rw [writeLoop_cons, flatten_cons]
    by_cases hlen : 0 < bytes.length
    · have hlt : n < bytes.length := h bytes.length (by simp [hlen])
      rw [if_neg (by omega), take_append_of_le_length hlt.le]
    · obtain rfl : bytes = [] := length_eq_zero_iff.1 (by omega)
      rw [if_pos (by simp), nil_append, nil_append, ih (by simpa using h)]

theorem Exact.copied_eq (h : Exact n vector) : copied n vector = share vector n := by
  rcases h with rfl | h
  · rw [copied_of_le vector le_rfl, share_of_le le_rfl]
  · exact copied_of_first vector h

theorem Exact.writeLoop_eq (h : Exact n (parts.map List.length)) :
    writeLoop n parts = parts.flatten.take n := by
  rcases h with h | h
  · rw [writeLoop_of_le parts h.ge, take_of_length_le]
    rw [length_flatten, h]
  · exact writeLoop_of_first parts h

theorem min_le_sum_copied (vector : List ℕ) : min n vector.sum ≤ (copied n vector).sum := by
  induction vector with
  | nil => exact min_le_right ..
  | cons len vector ih =>
    rw [copied]
    by_cases h : len ≤ n
    · rw [if_pos h, sum_cons, sum_cons]
      omega
    · rw [if_neg h, sum_cons, sum_cons]
      omega

/-- **The loops move too much** when they move the first element that is not empty, and more is asked
for than there is room for. -/
theorem lt_sum_copied (hle : n ≤ vector.sum) (h : ¬ Exact n vector) :
    n < (copied n vector).sum := by
  obtain ⟨hsum, hfirst⟩ := not_or.1 h
  simp only [not_forall, not_lt] at hfirst
  obtain ⟨first, hmem, hfirst⟩ := hfirst
  induction vector with
  | nil => exact absurd hmem (by simp)
  | cons len vector ih =>
    rw [copied, sum_cons] at *
    by_cases hlen : 0 < len
    · obtain rfl : len = first := by simpa [List.find?_cons, hlen] using hmem
      have hmin := min_le_sum_copied (n := n) vector
      rw [if_pos hfirst, sum_cons]
      omega
    · obtain rfl : len = 0 := by omega
      rw [List.find?_cons_of_neg (by simp)] at hmem
      rw [if_pos (Nat.zero_le _), sum_cons, Nat.zero_add]
      rw [Nat.zero_add] at hle hsum
      refine ih hle (fun hex => ?_) hsum hmem
      rcases hex with hex | hex
      · exact hsum hex
      · exact absurd (hex first hmem) (by omega)

theorem sum_copied_iff (hle : n ≤ vector.sum) : (copied n vector).sum = n ↔ Exact n vector := by
  constructor
  · intro h
    by_contra hex
    exact absurd h (lt_sum_copied hle hex).ne'
  · intro h
    rw [h.copied_eq, sum_share, min_eq_left hle]

/-! ### What a call moves -/

/-- A read has filled the elements in order with consecutive bytes of the datum, as many as it
returns. -/
structure Read.Right (d : BStreamDatum) (position : ℤ) (vector : List ℕ) (r : Read) : Prop where
  lengths : r.parts.map List.length = share vector r.amt.toNat
  bytes : r.parts.flatten = d.slice position r.amt.toNat
  inside : none ∉ r.parts.flatten

/-- A write has put the bytes of the elements into the memory, as many as it returns, and they are in
the datum from the position on. -/
structure Written.Right (position : ℤ) (parts : List (List Byte)) (w : Written) : Prop where
  bytes : w.bytes = parts.flatten.take w.amt.toNat
  stored : w.datum.slice position w.amt.toNat = w.bytes.map some

/-- The vector is too large, there is nothing to read, or the memory that is given has as much as the
loop moves, all of it bytes of the datum. -/
def Reading (d : BStreamDatum) (position : ℤ) (vector : List ℕ) (start : StartReading) : Prop :=
  vector.sum ≤ ssizeMax → ∀ size ∈ start,
    Exact (min size vector.sum) vector ∧
      (min size vector.sum = 0 ∨ 0 ≤ position ∧ position + min size vector.sum ≤ d.sizeLocked)

/-- The vector is too large, there is no memory, or it has as much as the loop moves, and the bytes are
stored from a position on that there is, or are there already. -/
def Writing (d : BStreamDatum) (position : ℤ) (parts : List (List Byte)) (start : StartWriting) :
    Prop :=
  (parts.map List.length).sum ≤ ssizeMax → ∀ room ∈ start,
    let n := min room.size (parts.map List.length).sum
    Exact n (parts.map List.length) ∧
      (0 ≤ position ∧ room.stores = true ∨
        d.slice position n = (parts.flatten.take n).map some)

theorem read_right_of_le {amt : ℤ} (h : amt ≤ 0) :
    Read.Right d position vector ⟨amt, vector.map fun _ => []⟩ := by
  have hflat : (vector.map fun _ => ([] : List (Option Byte))).flatten = [] := by simp
  have hzero := Int.toNat_of_nonpos h
  exact {
    lengths := by
      rw [hzero, share_zero, map_map]
      rfl
    bytes := by rw [hflat, hzero, slice_zero]
    inside := by simp }

theorem written_right_of_le {amt : ℤ} (h : amt ≤ 0) : Written.Right position parts ⟨amt, [], d⟩ := by
  have hzero := Int.toNat_of_nonpos h
  exact {
    bytes := by rw [hzero, take_zero]
    stored := by rw [hzero, slice_zero, map_nil] }

theorem byteAt_eq_none {i : ℤ} : d.byteAt i = none ↔ i < 0 ∨ d.sizeLocked ≤ i := by
  unfold byteAt sizeLocked
  by_cases h : 0 ≤ i
  · rw [if_pos h, List.getElem?_eq_none_iff]
    omega
  · rw [if_neg h]
    exact iff_of_true rfl (by omega)

theorem none_notMem_slice : none ∉ d.slice position n ↔
    n = 0 ∨ 0 ≤ position ∧ position + n ≤ d.sizeLocked := by
  simp only [slice, mem_map, mem_range, not_exists, not_and, byteAt_eq_none]
  constructor
  · intro h
    by_cases hn : n = 0
    · exact .inl hn
    · have hfirst := h 0 (by omega)
      have hlast := h (n - 1) (by omega)
      omega
  · intro h i hi
    omega

theorem readLocked_eq (start : StartReading) : d.readLocked position vector start =
    if vector.sum ≤ ssizeMax then
      match start with
      | none => ⟨0, vector.map fun _ => []⟩
      | some size =>
        ⟨(min size vector.sum : ℕ), d.readLoop (min size vector.sum : ℕ) vector position⟩
    else ⟨outOfRange, vector.map fun _ => []⟩ := by
  unfold readLocked
  rw [sumIovec_eq]
  by_cases hsum : vector.sum ≤ ssizeMax
  · rw [if_pos hsum, if_pos hsum, if_neg (by omega)]
    push_cast
    rfl
  · rw [if_neg hsum, if_neg hsum]
    rfl

theorem eq_zero_of_slice {bytes : List Byte} (hpos : ¬ 0 ≤ position)
    (h : d.slice position n = bytes.map some) : n = 0 := by
  have hnone : none ∉ d.slice position n := by
    rw [h]
    simp
  exact (none_notMem_slice.1 hnone).resolve_right fun h' => hpos h'.1

theorem readLocked_iff (start : StartReading) :
    (d.readLocked position vector start).Right d position vector ↔
      Reading d position vector start := by
  rw [readLocked_eq, Reading]
  by_cases hsum : vector.sum ≤ ssizeMax
  · rw [if_pos hsum, forall_prop_of_true hsum]
    rcases start with _ | size
    · exact iff_of_true (read_right_of_le le_rfl) (by simp)
    · have hle : min size vector.sum ≤ vector.sum := min_le_right ..
      simp only [Option.mem_some_iff, forall_eq']
      constructor
      · intro h
        have hex : Exact (min size vector.sum) vector := by
          rw [← sum_copied_iff hle, ← lengths_readLoop (d := d) vector position, h.lengths,
            sum_share, Int.toNat_natCast, min_eq_left hle]
        refine ⟨hex, none_notMem_slice.1 ?_⟩
        have hinside := h.inside
        rwa [flatten_readLoop, (sum_copied_iff hle).2 hex] at hinside
      · rintro ⟨hex, hinside⟩
        have hflat := flatten_readLoop (d := d) (n := min size vector.sum) vector position
        rw [(sum_copied_iff hle).2 hex] at hflat
        exact {
          lengths := by rw [lengths_readLoop, hex.copied_eq, Int.toNat_natCast]
          bytes := by rw [hflat, Int.toNat_natCast]
          inside := by
            rw [hflat]
            exact none_notMem_slice.2 hinside }
  · rw [if_neg hsum]
    exact iff_of_true (read_right_of_le (by decide)) fun h => absurd h hsum

theorem byteAt_finishWriting {bytes : List Byte} {byte : ℕ → Byte} (hpos : 0 ≤ position)
    (hlen : bytes.length = n) {i : ℕ} (hi : i < n) :
    (d.finishWriting position n flags byte bytes).byteAt (position + i) = bytes[i]? := by
  have hsize : (position + i).toNat <
      (if d.sizeLocked > position + n ∧ flags &&& writeEnd = 0 then d.sizeLocked
        else position + n).toNat := by
    split <;> omega
  have hin : position ≤ ((position + i).toNat : ℤ) ∧
      ((position + i).toNat : ℤ) < position + bytes.length := by omega
  have hsub : (((position + i).toNat : ℤ) - position).toNat = i := by omega
  rw [byteAt, if_pos (by omega), finishWriting]
  rw [List.getElem?_map, List.getElem?_range hsize, Option.map_some, if_pos hin, hsub,
    getD_eq_getElem?_getD, List.getElem?_eq_getElem (by omega), Option.getD_some]

theorem slice_finishWriting {bytes : List Byte} {byte : ℕ → Byte} (hpos : 0 ≤ position)
    (hlen : bytes.length = n) :
    (d.finishWriting position n flags byte bytes).slice position n = bytes.map some := by
  refine ext_getElem? fun i => ?_
  by_cases hi : i < n
  · rw [slice, List.getElem?_map, List.getElem?_range hi, Option.map_some,
      byteAt_finishWriting hpos hlen hi, List.getElem?_map, List.getElem?_eq_getElem (by omega)]
    rfl
  · rw [List.getElem?_eq_none (by rw [length_slice]; omega),
      List.getElem?_eq_none (by rw [length_map]; omega)]

theorem writeLocked_eq (start : StartWriting) : d.writeLocked position parts flags start =
    if (parts.map List.length).sum ≤ ssizeMax then
      match start with
      | none => ⟨noMemory, [], d⟩
      | some room =>
        let n := min room.size (parts.map List.length).sum
        let bytes := writeLoop n parts
        ⟨n, bytes, if room.stores then d.finishWriting position n flags room.byte bytes else d⟩
    else ⟨outOfRange, [], d⟩ := by
  unfold writeLocked
  rw [sumIovec_eq]
  by_cases hsum : (parts.map List.length).sum ≤ ssizeMax
  · rw [if_pos hsum, if_pos hsum, if_neg (by omega)]
    push_cast
    rfl
  · rw [if_neg hsum, if_neg hsum]
    rfl

/-- **A write is right** exactly where it is `Writing`. -/
theorem writeLocked_iff (start : StartWriting) :
    (d.writeLocked position parts flags start).Right position parts ↔
      Writing d position parts start := by
  rw [writeLocked_eq, Writing]
  by_cases hsum : (parts.map List.length).sum ≤ ssizeMax
  · rw [if_pos hsum, forall_prop_of_true hsum]
    rcases start with _ | room
    · exact iff_of_true (written_right_of_le (by decide)) (by simp)
    · simp only [Option.mem_some_iff, forall_eq']
      have hle : min room.size (parts.map List.length).sum ≤ (parts.map List.length).sum :=
        min_le_right ..
      generalize min room.size (parts.map List.length).sum = n at hle ⊢
      have hlen : (parts.flatten.take n).length = n := by
        rw [length_take, length_flatten, min_eq_left hle]
      have hex : writeLoop n parts = parts.flatten.take n ↔ Exact n (parts.map List.length) := by
        refine ⟨fun h => ?_, Exact.writeLoop_eq⟩
        rw [← sum_copied_iff hle, ← length_writeLoop, h, hlen]
      constructor
      · intro h
        have hbytes : writeLoop n parts = parts.flatten.take n := h.bytes
        have hstored := h.stored
        refine ⟨hex.1 hbytes, ?_⟩
        by_cases hpos : 0 ≤ position
        · by_cases hstores : room.stores = true
          · exact .inl ⟨hpos, hstores⟩
          · rw [if_neg hstores, hbytes] at hstored
            exact .inr hstored
        · obtain rfl := eq_zero_of_slice hpos hstored
          exact .inr (by simp)
      · rintro ⟨h, hplace⟩
        have hbytes := hex.2 h
        refine ⟨hbytes, ?_⟩
        simp only [Int.toNat_natCast, hbytes]
        by_cases hplace' : 0 ≤ position ∧ room.stores = true
        · rw [if_pos hplace'.2]
          exact slice_finishWriting hplace'.1 hlen
        · have hthere := hplace.resolve_left hplace'
          by_cases hpos : 0 ≤ position
          · rw [if_neg fun h => hplace' ⟨hpos, h⟩]
            exact hthere
          · obtain rfl := eq_zero_of_slice hpos hthere
            simp
  · rw [if_neg hsum]
    exact iff_of_true (written_right_of_le (by decide)) fun h => absurd h hsum

/-! ### The operations of a stream -/

/-- The vectored operations of a stream, at its position and at a given one: each moves as much as it
returns, and those at the position of the stream move that as far. -/
structure Moves (d : BStreamDatum) (s : Stream) (position : ℤ) (vector : List ℕ)
    (start : StartReading) (parts : List (List Byte)) (flags : BitVec 32) (room : StartWriting) :
    Prop where
  readV : let r := s.readV d vector start
    Read.Right d s.pos vector ⟨r.result, r.parts⟩ ∧ r.stream.pos = s.pos + max 0 r.result
  writeV : let r := s.writeV d parts flags room
    Written.Right s.pos parts ⟨r.result, r.written, r.datum⟩ ∧ r.stream.pos = s.pos + max 0 r.result
  readAtV : let r := s.readAtV d position vector start
    Read.Right d position vector ⟨r.result, r.parts⟩ ∧ r.stream.pos = s.pos
  writeAtV : let r := s.writeAtV d position parts room
    Written.Right position parts ⟨r.result, r.written, r.datum⟩ ∧ r.stream.pos = s.pos

theorem pos_add (amt : ℤ) : (if amt > 0 then s.pos + amt else s.pos) = s.pos + max 0 amt := by
  split <;> omega

theorem writeWrapper_fst (editor : Editor) (start : StartWriting) :
    (d.writeWrapper editor position parts flags start).1 =
      d.writeLocked position parts flags start := by
  unfold writeWrapper
  simp only
  split <;> rfl

/-- **Each byte is moved once**, and as many as are returned, exactly where a call is `Reading` or
`Writing`, or denied. -/
theorem moves_iff (d : BStreamDatum) (s : Stream) (position : ℤ) (vector : List ℕ)
    (start : StartReading) (parts : List (List Byte)) (flags : BitVec 32) (room : StartWriting) :
    Moves d s position vector start parts flags room ↔
      Reading d s.pos vector start ∧ Writing d s.pos parts room ∧
        (s.reads → Reading d position vector start) ∧
        (s.writes → Writing d position parts room) := by
  have hwriteV : (let r := s.writeV d parts flags room
      Written.Right s.pos parts ⟨r.result, r.written, r.datum⟩ ∧
        r.stream.pos = s.pos + max 0 r.result) ↔ Writing d s.pos parts room := by
    simp only [Stream.writeV, writeWrapper_fst]
    rw [← @writeLocked_iff d parts s.pos flags]
    exact and_iff_left (pos_add _)
  have hdenied : permissionDenied ≤ 0 := by decide
  have hreadAt : (let r := s.readAtV d position vector start
      Read.Right d position vector ⟨r.result, r.parts⟩ ∧ r.stream.pos = s.pos) ↔
      (s.reads → Reading d position vector start) := by
    unfold Stream.readAtV
    by_cases h : s.reads
    · rw [if_pos h, forall_prop_of_true h, ← readLocked_iff]
      exact and_iff_left rfl
    · rw [if_neg h]
      exact iff_of_true ⟨read_right_of_le hdenied, rfl⟩ fun h' => absurd h' h
  have hwriteAt : (let r := s.writeAtV d position parts room
      Written.Right position parts ⟨r.result, r.written, r.datum⟩ ∧ r.stream.pos = s.pos) ↔
      (s.writes → Writing d position parts room) := by
    unfold Stream.writeAtV
    by_cases h : s.writes
    · rw [if_pos h, forall_prop_of_true h, ← @writeLocked_iff d parts position 0]
      exact and_iff_left rfl
    · rw [if_neg h]
      exact iff_of_true ⟨written_right_of_le hdenied, rfl⟩ fun h' => absurd h' h
  constructor
  · intro h
    exact ⟨(readLocked_iff start).1 h.readV.1, hwriteV.1 h.writeV, hreadAt.1 h.readAtV,
      hwriteAt.1 h.writeAtV⟩
  · rintro ⟨hr, hw, hra, hwa⟩
    exact {
      readV := ⟨(readLocked_iff start).2 hr, pos_add _⟩
      writeV := hwriteV.2 hw
      readAtV := hreadAt.2 hra
      writeAtV := hwriteAt.2 hwa }

/-- A datum of three bytes is read into two elements of two bytes by its class: four bytes are copied,
and three returned. -/
theorem reads_too_much :
    let d : BStreamDatum := ⟨0, [1, 2, 3]⟩
    let start := (SDatumGeneratorInt.startReadingAt 3 0 4).map Int.toNat
    d.readLocked 0 [2, 2] start = ⟨3, [[some 1, some 2], [some 3, none]]⟩ ∧
      ¬ Moves d ⟨0, none, 0⟩ 0 [2, 2] start [] 0 none := by
  have heq : (⟨0, [1, 2, 3]⟩ : BStreamDatum).readLocked 0 [2, 2] (some 3) =
      ⟨3, [[some 1, some 2], [some 3, none]]⟩ := by decide
  refine ⟨heq, fun h => ?_⟩
  have hlengths := h.readV.1.lengths
  exact absurd hlengths (by decide)

/-! ### The virtuals of `SDatumGeneratorInt` -/

/-- **`StartReadingAtLocked`** gives what there is behind the position, as far as it is asked for. -/
theorem startReadingAt_eq {len : ℕ} (hlen : len ≤ ssizeMax) (hpos : 0 ≤ position)
    (hn : n ≤ ssizeMax) : SDatumGeneratorInt.startReadingAt len position n =
      if position > len then none else some (min (n : ℤ) (len - position)) := by
  have hmax : ssizeMax = 2 ^ 31 - 1 := rfl
  unfold SDatumGeneratorInt.startReadingAt
  by_cases h : position > len
  · rw [if_pos h, if_pos h]
  · rw [if_neg h, if_neg h, size_of_lt hpos (by omega), size_of_lt (by omega) (by omega),
      ssize_of_lt (by omega) (by omega)]
    split <;> congr 1 <;> omega

/-- **A read of such a datum** from a position in it is right exactly where the loop moves no more
than there is behind the position. -/
theorem read_at_iff (hlen : d.bytes.length ≤ ssizeMax) (hpos : 0 ≤ position)
    (hle : position ≤ d.sizeLocked) (hsum : vector.sum ≤ ssizeMax) :
    (d.readLocked position vector ((SDatumGeneratorInt.startReadingAt d.bytes.length position
        vector.sum).map Int.toNat)).Right d position vector ↔
      Exact (min vector.sum (d.bytes.length - position.toNat)) vector := by
  have hsize : d.sizeLocked = d.bytes.length := rfl
  have hmin : min (min (vector.sum : ℤ) (d.bytes.length - position)).toNat vector.sum =
      min vector.sum (d.bytes.length - position.toNat) := by omega
  rw [readLocked_iff, startReadingAt_eq hlen hpos hsum, if_neg (by omega), Reading,
    forall_prop_of_true hsum]
  simp only [Option.map_some, Option.mem_some_iff, forall_eq', hmin]
  refine and_iff_left ?_
  omega

/-- Two bytes of three, from the second on. -/
theorem read_at_iff_two :
    let d : BStreamDatum := ⟨0, [1, 2, 3]⟩
    (d.readLocked 1 [1, 1] ((SDatumGeneratorInt.startReadingAt 3 1 2).map Int.toNat)).Right d 1 [1, 1]
      ↔ Exact 2 [1, 1] :=
  read_at_iff (d := ⟨0, [1, 2, 3]⟩) (by decide) (by decide) (by decide) (by decide)

end OpenBinder.BStreamDatum
