import OpenBinder.Datum.OpenLaw
import OpenBinder.Datum.VectorLaw

/-!
# Changes that are reported

* `World.perform`: every operation on a datum and the streams that were opened on it.
* `Announced`: one report of an operation tells all that it has changed.
* `Covered`: the operations of which that is so, and `announced_of_covered`.
* `announces_of_covered`: in a run of such operations every change is announced.
-/

namespace OpenBinder.BStreamDatum

open Lib List

variable {d d' : BStreamDatum} {position : ℤ} {parts : List (List Byte)} {flags : BitVec 32}
  {n : ℕ} {reports : List Report}

/-! ### Runs -/

/-- A datum that is linked to, its mode, and the streams on it. -/
structure World where
  datum : BStreamDatum
  mode : BitVec 32
  streams : List Stream

/-- An operation, with the answers of the virtuals. -/
inductive Act where
  | setValueType (type : BitVec 32) (store : StoreType)
  | setSize (size : ℤ) (store : StoreSize)
  | setValue (value : SValue) (store : StoreValue)
  | «open» (mode : BitVec 32) (editor : Editor) (newType : BitVec 32) (storeSize : StoreSize)
      (storeType : StoreType)
  | stream (i : ℕ) (op : Stream.Op)

/-- An operation: the world after it, and its reports; `none` without the stream. -/
def World.perform (w : World) : Act → Option (World × List Report)
  | .setValueType type store =>
    let (_, d, reports) := w.datum.setValueTypeLocked store type
    some ({ w with datum := d }, reports)
  | .setSize size store =>
    let (_, d, reports) := w.datum.setSizeLocked store size
    some ({ w with datum := d }, reports)
  | .setValue value store =>
    let (_, d, reports) := w.datum.setValueLocked store value
    some ({ w with datum := d }, reports)
  | .open mode editor newType storeSize storeType =>
    let (s, d, reports) := w.datum.openStream w.mode mode editor newType storeSize storeType
    some ({ w with datum := d, streams := w.streams ++ s.toList }, reports)
  | .stream i op => do
    let s ← w.streams[i]?
    let r := s.perform w.datum op
    some ({ w with datum := r.datum, streams := w.streams.set i r.stream }, r.reports)

/-- The world after an operation. -/
def World.step (w : World) (a : Act) : Option World := (w.perform a).map Prod.fst

/-- What changed is announced: a report names each of type, size and contents that is another one, and
has every byte that is in its range. -/
def Announced (old new : BStreamDatum) (reports : List Report) : Prop :=
  old = new ∨ ∃ r ∈ reports,
    (old.type ≠ new.type → r.changes &&& typeChanged ≠ 0) ∧
    (old.sizeLocked ≠ new.sizeLocked → r.changes &&& sizeChanged ≠ 0) ∧
    (old.bytes ≠ new.bytes → r.changes &&& dataChanged ≠ 0) ∧
    ∀ i : ℕ, old.bytes[i]? ≠ new.bytes[i]? → r.start ≤ i ∧ i < r.start + r.length

/-- An operation announces what it changes. -/
def World.Announces (w : World) (a : Act) : Prop :=
  ∀ w' reports, w.perform a = some (w', reports) → Announced w.datum w'.datum reports

/-! ### Which operations do -/

/-- What `WriteV` reports is all that it changes: it moves no more than it returns, does not begin
behind the end of the datum, and cuts nothing off it. -/
def WriteCovered (d : BStreamDatum) (position : ℤ) (parts : List (List Byte)) (flags : BitVec 32)
    (start : StartWriting) : Prop :=
  (parts.map List.length).sum ≤ ssizeMax → ∀ room ∈ start, room.stores = true →
    let n := min room.size (parts.map List.length).sum
    Exact n (parts.map List.length) ∧ position ≤ d.sizeLocked ∧
      (flags &&& writeEnd ≠ 0 → d.sizeLocked ≤ position + n)

/-- A write changes nothing: what it puts into the datum is there. -/
def WriteIdle (d : BStreamDatum) (position : ℤ) (parts : List (List Byte)) (start : StartWriting) :
    Prop :=
  (parts.map List.length).sum ≤ ssizeMax → ∀ room ∈ start, room.stores = true →
    let n := min room.size (parts.map List.length).sum
    Exact n (parts.map List.length) ∧ position ≤ d.sizeLocked ∧
      d.slice position n = (parts.flatten.take n).map some

/-- A value that is stored: if it can not be written, the size was not changed before, and if it is as
long as the datum was, so is the datum after it. -/
def ValueCovered (d : BStreamDatum) (value : SValue) (store : StoreValue) : Prop :=
  store.value.compare value ≠ .eq → ∀ bytes ∈ value.bytes, ∀ m, store.size = .ok m →
    (ssizeMax < bytes.length ∨ store.writing = none → min m bytes.length = d.bytes.length) ∧
    (bytes.length = d.bytes.length → ∀ room ∈ store.writing,
      bytes.length ≤ m ∨ room.stores = true ∧ bytes.length ≤ room.size)

/-- The operations that announce what they change. -/
def Covered (w : World) : Act → Prop
  | .setValue value store => ValueCovered w.datum value store
  | .stream i op => ∀ s ∈ w.streams[i]?,
    match op with
    | .writeV parts flags start => WriteCovered w.datum s.pos parts flags start
    | .writeAtV position parts start => s.writes → WriteIdle w.datum position parts start
    | _ => True
  | _ => True

/-! ### What the operations report -/

theorem announced_same : Announced d d reports := .inl rfl

theorem sizeData_has : (sizeChanged ||| dataChanged) &&& sizeChanged ≠ 0 ∧
    (sizeChanged ||| dataChanged) &&& dataChanged ≠ 0 := by decide

/-- The flags of a write or a value name the contents, and type and size where they are others. -/
theorem flags_has (p q : Prop) [Decidable p] [Decidable q] :
    let changes := dataChanged ||| (if p then typeChanged else 0) ||| if q then sizeChanged else 0
    (p → changes &&& typeChanged ≠ 0) ∧ (q → changes &&& sizeChanged ≠ 0) ∧
      changes &&& dataChanged ≠ 0 := by
  by_cases hp : p
  · by_cases hq : q
    · simp only [hp, hq, if_true, true_imp_iff]
      decide
    · simp only [hp, hq, if_true, if_false, true_imp_iff, false_imp_iff]
      decide
  · by_cases hq : q
    · simp only [hp, hq, if_true, if_false, true_imp_iff, false_imp_iff]
      decide
    · simp only [hp, hq, if_false, false_imp_iff]
      decide

theorem eq_of_bytes (htype : d.type = d'.type) (h : ∀ i : ℕ, d.bytes[i]? = d'.bytes[i]?) : d = d' := by
  obtain ⟨type, bytes⟩ := d
  obtain ⟨type', bytes'⟩ := d'
  obtain rfl : type = type' := htype
  obtain rfl : bytes = bytes' := ext_getElem? h
  rfl

theorem setValueType_announced (store : StoreType) (type : BitVec 32) :
    Announced d (d.setValueTypeLocked store type).2.1 (d.setValueTypeLocked store type).2.2 := by
  unfold setValueTypeLocked
  by_cases h : d.type ≠ type
  · rw [if_pos h]
    rcases store with _ | err
    · refine .inr ⟨⟨none, typeChanged, -1, -1⟩, by simp [storeValueTypeLocked], ?_⟩
      exact ⟨fun _ => by decide, fun h => absurd rfl h, fun h => absurd rfl h, fun i h => absurd rfl h⟩
    · exact announced_same
  · rw [if_neg h]
    exact announced_same

/-- The datum with another size; what is new is zero. -/
def resized (d : BStreamDatum) (m : ℕ) : BStreamDatum :=
  { d with bytes := d.bytes.take m ++ List.replicate (m - d.bytes.length) 0 }

theorem length_resized (m : ℕ) : (d.resized m).bytes.length = m := by
  rw [resized, length_append, length_take, length_replicate]
  omega

theorem changed_resized {m i : ℕ} (h : d.bytes[i]? ≠ (d.resized m).bytes[i]?) :
    min m d.bytes.length ≤ i ∧ i < max m d.bytes.length := by
  have hlen := length_resized (d := d) m
  constructor
  · by_contra hlt
    refine h ?_
    rw [resized, List.getElem?_append_left (by rw [length_take]; omega),
      List.getElem?_take_of_lt (by omega)]
  · by_contra hge
    rw [List.getElem?_eq_none (by omega), List.getElem?_eq_none (by omega)] at h
    exact h rfl

theorem resized_self : d.resized d.bytes.length = d := by
  refine eq_of_bytes rfl fun i => ?_
  by_contra h
  have := changed_resized (Ne.symm h)
  omega

theorem storeSizeLocked_cases (store : StoreSize) (size : ℤ) :
    (∃ err ≠ 0, d.storeSizeLocked store size = (err, d)) ∨
      ∃ m, store = .ok m ∧ 0 ≤ size ∧
        d.storeSizeLocked store size = (0, d.resized (min m size.toNat)) := by
  rcases store with err | m
  · exact .inl ⟨err.1, err.2, rfl⟩
  · by_cases h : size < 0
    · exact .inl ⟨outOfRange, by decide, by rw [storeSizeLocked, if_pos h]⟩
    · exact .inr ⟨m, rfl, not_lt.1 h, by rw [storeSizeLocked, if_neg h]; rfl⟩

theorem setSize_announced (store : StoreSize) (size : ℤ) :
    Announced d (d.setSizeLocked store size).2.1 (d.setSizeLocked store size).2.2 := by
  unfold setSizeLocked
  by_cases h : d.sizeLocked ≠ size
  · simp only [if_pos h]
    rcases d.storeSizeLocked_cases store size with ⟨err, herr, heq⟩ | ⟨m, -, hsize, heq⟩
    · rw [heq]
      simp only [if_neg herr]
      exact announced_same
    · rw [heq]
      generalize min m size.toNat = n
      have hlen : (d.resized n).sizeLocked = n := by rw [sizeLocked, length_resized]
      simp only [if_pos, hlen]
      have hd : d.sizeLocked = d.bytes.length := rfl
      by_cases hne : d.sizeLocked ≠ n
      · rw [if_pos hne]
        refine .inr ⟨_, mem_singleton_self _, fun h => absurd rfl h, fun _ => ?_, fun _ => ?_,
          fun i hi => ?_⟩
        · split <;> exact sizeData_has.1
        · split <;> exact sizeData_has.2
        · have hrange := changed_resized hi
          split
          · constructor <;> simp only <;> omega
          · constructor <;> simp only <;> omega
      · obtain rfl : d.bytes.length = n := by omega
        rw [if_neg hne, resized_self]
        exact announced_same
  · simp only [if_neg h]
    exact announced_same

theorem sizeLocked_finishWriting {total : ℤ} {byte : ℕ → Byte} {bytes : List Byte}
    (h : 0 ≤ position + total) : (d.finishWriting position total flags byte bytes).sizeLocked =
      if d.sizeLocked > position + total ∧ flags &&& writeEnd = 0 then d.sizeLocked
      else position + total := by
  rw [sizeLocked, finishWriting, length_map, length_range]
  split <;> omega

/-- **What a write changes** is where it writes, if it does not begin behind the datum and cuts
nothing off. -/
theorem changed_finishWriting {byte : ℕ → Byte} {bytes : List Byte} (hlen : bytes.length = n)
    (hpos : position ≤ d.sizeLocked)
    (hend : flags &&& writeEnd ≠ 0 → d.sizeLocked ≤ position + n) {i : ℕ}
    (h : d.bytes[i]? ≠ (d.finishWriting position n flags byte bytes).bytes[i]?) :
    position ≤ i ∧ i < position + n := by
  by_contra hout
  refine h ?_
  have hd : d.sizeLocked = d.bytes.length := rfl
  have hlong : d.sizeLocked ≤ if d.sizeLocked > position + n ∧ flags &&& writeEnd = 0 then
      d.sizeLocked else position + n := by
    by_cases hflags : flags &&& writeEnd = 0
    · simp only [hflags, and_true]
      split <;> omega
    · rw [if_neg fun h => hflags h.2]
      exact hend hflags
  rw [finishWriting, List.getElem?_map]
  by_cases hi : i < d.bytes.length
  · rw [List.getElem?_range (by omega), Option.map_some, if_neg (by omega),
      getD_eq_getElem?_getD, List.getElem?_eq_getElem hi, Option.getD_some]
  · rw [List.getElem?_eq_none (by omega), List.getElem?_eq_none, Option.map_none]
    rw [length_range]
    split <;> omega

theorem writeV_announced {start : StartWriting} {editor : Editor}
    (h : WriteCovered d position parts flags start) :
    Announced d (d.writeWrapper editor position parts flags start).1.datum
      (d.writeWrapper editor position parts flags start).2 := by
  unfold writeWrapper
  rw [writeLocked_eq]
  by_cases hsum : (parts.map List.length).sum ≤ ssizeMax
  · rw [if_pos hsum]
    rcases start with _ | room
    · exact announced_same
    by_cases hstores : room.stores = true
    · obtain ⟨hex, hpos, hend⟩ := h hsum room rfl hstores
      simp only [if_pos hstores]
      have hle : min room.size (parts.map List.length).sum ≤ (parts.map List.length).sum :=
        min_le_right ..
      generalize min room.size (parts.map List.length).sum = n at hex hend hle ⊢
      have hlen : (writeLoop n parts).length = n := by
        rw [length_writeLoop, (sum_copied_iff hle).2 hex]
      have hchanged := fun i =>
        @changed_finishWriting d position flags n room.byte _ hlen hpos hend i
      by_cases hn : (n : ℤ) > 0
      · rw [if_pos hn]
        obtain ⟨-, hsize, hdata⟩ := flags_has False (d.sizeLocked ≠
          (d.finishWriting position n flags room.byte (writeLoop n parts)).sizeLocked)
        exact .inr ⟨_, mem_singleton_self _, fun h => absurd rfl h, hsize, fun _ => hdata,
          hchanged⟩
      · rw [if_neg hn]
        refine .inl (eq_of_bytes rfl fun i => ?_)
        by_contra hi
        have := hchanged i hi
        omega
    · simp only [if_neg hstores]
      split <;> exact announced_same
  · rw [if_neg hsum]
    exact announced_same

theorem writeAtV_announced {start : StartWriting} (h : WriteIdle d position parts start) :
    (d.writeLocked position parts 0 start).datum = d := by
  rw [writeLocked_eq]
  by_cases hsum : (parts.map List.length).sum ≤ ssizeMax
  · rw [if_pos hsum]
    rcases start with _ | room
    · rfl
    by_cases hstores : room.stores = true
    · obtain ⟨hex, hpos, hthere⟩ := h hsum room rfl hstores
      simp only [if_pos hstores]
      generalize min room.size (parts.map List.length).sum = n at hex hthere ⊢
      rw [hex.writeLoop_eq]
      have hlen : (parts.flatten.take n).length = n := by
        have := congrArg List.length hthere
        rwa [length_slice, length_map, eq_comm] at this
      symm
      refine eq_of_bytes rfl fun i => ?_
      by_contra hi
      -- the bytes that are written are those that are there
      have hin := changed_finishWriting hlen hpos (fun h => absurd BitVec.zero_and h) hi
      have hpos' : 0 ≤ position := by
        by_contra hneg
        have := eq_zero_of_slice hneg hthere
        omega
      obtain ⟨k, hk⟩ : ∃ k : ℕ, (i : ℤ) = position + k := ⟨(i - position).toNat, by omega⟩
      have hnew := @byteAt_finishWriting d n position 0 _ room.byte hpos' hlen k (by omega)
      have hold : d.byteAt (position + k) = (parts.flatten.take n)[k]? := by
        have hget := congrArg (fun l => l[k]?) hthere
        simp only [slice, List.getElem?_map, List.getElem?_range (show k < n by omega),
          Option.map_some] at hget
        rw [List.getElem?_eq_getElem (by omega)] at hget ⊢
        exact Option.some.inj hget
      refine hi ?_
      have hget : ∀ d : BStreamDatum, d.bytes[i]? = d.byteAt (position + k) := by
        intro d
        rw [← hk, byteAt, if_pos (by omega), Int.toNat_natCast]
      rw [hget, hget, hold, hnew]
    · simp only [if_neg hstores]
  · rw [if_neg hsum]

theorem length_bytes {value : SValue} {bytes : List Byte} (h : value.bytes = some bytes) :
    value.length = bytes.length := by
  rcases value with ⟨type, data⟩ | ⟨type, buffer⟩ | m
  · obtain ⟨⟩ := h
    have hmax : unpackTypeLength type.1 ≤ 4 := type.2
    rw [SValue.length, length_take, wordBytes_length, Nat.min_eq_left hmax]
  · obtain ⟨⟩ := h
    rfl
  · exact absurd h nofun

/-- A value is written over a datum of another size: the datum is no longer than the value or that
size, and as long as the value where one of the two is that long. -/
theorem sizeLocked_written {bytes : List Byte} {room : Room} (hsum : bytes.length ≤ ssizeMax)
    (hle : d.bytes.length ≤ bytes.length) :
    let w := d.writeLocked 0 [bytes] 0 (some room)
    0 ≤ w.amt ∧ w.datum.type = d.type ∧ w.datum.bytes.length ≤ bytes.length ∧
      (bytes.length ≤ d.bytes.length ∨ room.stores = true ∧ bytes.length ≤ room.size →
        w.datum.bytes.length = bytes.length) := by
  have hd : d.sizeLocked = d.bytes.length := rfl
  rw [writeLocked_eq]
  simp only [map_cons, map_nil, sum_cons, sum_nil, Nat.add_zero, if_pos hsum]
  generalize hn : min room.size bytes.length = n
  refine ⟨Int.natCast_nonneg n, ?_⟩
  by_cases hstores : room.stores = true
  · rw [if_pos hstores]
    have hsize := @sizeLocked_finishWriting d 0 0 n room.byte (writeLoop n [bytes]) (by omega)
    rw [sizeLocked] at hsize
    refine ⟨rfl, ?_, fun h => ?_⟩
    · split at hsize <;> omega
    · split at hsize
      · omega
      · rename_i hnot
        have : ¬ d.sizeLocked > 0 + n := fun h => hnot ⟨h, BitVec.zero_and⟩
        omega
  · rw [if_neg hstores]
    exact ⟨rfl, hle, fun h => le_antisymm hle (h.resolve_right fun h => hstores h.1)⟩

theorem writeWrapper_fails {start : StartWriting} (editor : Editor)
    (h : ssizeMax < (parts.map List.length).sum ∨ start = none) :
    ∃ err < 0, d.writeWrapper editor position parts flags start = (⟨err, [], d⟩, []) := by
  unfold writeWrapper
  rw [writeLocked_eq]
  by_cases hsum : (parts.map List.length).sum ≤ ssizeMax
  · obtain rfl := h.resolve_left (not_lt.2 hsum)
    exact ⟨noMemory, by decide, by rw [if_pos hsum]; rfl⟩
  · exact ⟨outOfRange, by decide, by rw [if_neg hsum]; rfl⟩

theorem setValue_announced {value : SValue} {store : StoreValue} (h : ValueCovered d value store) :
    Announced d (d.setValueLocked store value).2.1 (d.setValueLocked store value).2.2 := by
  unfold setValueLocked
  by_cases hne : store.value.compare value ≠ .eq
  swap
  · rw [if_neg hne]
    exact announced_same
  rw [if_pos hne]
  unfold storeValueLocked
  rcases hbytes : value.bytes with _ | bytes
  · exact announced_same
  rcases d.storeSizeLocked_cases store.size bytes.length with ⟨err, herr, heq⟩ | ⟨m, hm, -, heq⟩
  · simp only [heq, if_neg herr]
    exact announced_same
  obtain ⟨hfail, hsame⟩ := h hne bytes hbytes m hm
  rw [Int.toNat_natCast] at heq
  have hlen := length_bytes hbytes
  have hresized := length_resized (d := d) (min m bytes.length)
  simp only [heq, if_true]
  by_cases hlost : ssizeMax < ([bytes].map List.length).sum ∨ store.writing = none
  · obtain ⟨err, herr, hw⟩ := @writeWrapper_fails (d.resized (min m bytes.length)) 0 _ 0 _ none hlost
    simp only [hw, if_neg (not_le.2 herr), if_neg herr.ne]
    rw [hfail (by simpa using hlost), resized_self]
    exact announced_same
  · obtain ⟨hsum, hstart⟩ := not_or.1 hlost
    obtain ⟨room, hroom⟩ := Option.ne_none_iff_exists'.1 hstart
    obtain ⟨hamt, htype, hle, hfull⟩ := @sizeLocked_written (d.resized (min m bytes.length)) _ room
      (by simpa using hsum) (by omega)
    have hwrapper := @writeWrapper_fst (d.resized (min m bytes.length)) [bytes] 0 0 none store.writing
    rw [hroom] at hwrapper ⊢
    generalize (d.resized (min m bytes.length)).writeWrapper none 0 [bytes] 0 (some room) = written
      at hwrapper ⊢
    obtain ⟨w, reports⟩ := written
    simp only at hwrapper
    rw [← hwrapper] at hamt htype hle hfull
    simp only [ge_iff_le, if_pos hamt, if_true, storeValueTypeLocked_snd]
    have hd : d.sizeLocked = d.bytes.length := rfl
    obtain ⟨htypeFlag, hsizeFlag, hdataFlag⟩ := flags_has (d.type ≠ unpackTypeCode value.mType)
      (d.sizeLocked ≠ value.length)
    refine .inr ⟨_, mem_append_right _ (mem_singleton_self _),
      fun hne => htypeFlag fun hother => hne ?_, fun hne => hsizeFlag fun hother => hne ?_,
      fun _ => hdataFlag, fun i hi => ?_⟩
    · -- the type stays where it is that of the value
      simp only [← hother, htype]
      exact (ite_self _).symm
    · have hfull' := hfull (by
        rcases hsame (by omega) room hroom with h | h
        · exact .inl (by omega)
        · exact .inr h)
      simp only [sizeLocked]
      omega
    · have hlast : i < max d.bytes.length w.datum.bytes.length := by
        by_contra hge
        have hnone : w.datum.bytes[i]? = none := List.getElem?_eq_none (by omega)
        exact hi ((List.getElem?_eq_none (by omega)).trans hnone.symm)
      simp only
      split <;> omega

variable {mode type : BitVec 32} {editor : Editor} {storeSize : StoreSize} {storeType : StoreType}

theorem initAtom_flags (p q : Prop) [Decidable p] [Decidable q] :
    let changes := (if p then sizeChanged ||| dataChanged else 0) ||| if q then typeChanged else 0
    (p → changes &&& sizeChanged ≠ 0 ∧ changes &&& dataChanged ≠ 0) ∧
      (q → changes &&& typeChanged ≠ 0) ∧ (p ∨ q → changes ≠ 0) := by
  by_cases hp : p
  · by_cases hq : q
    · simp only [hp, hq, if_true, true_imp_iff, or_true]
      decide
    · simp only [hp, hq, if_true, if_false, true_imp_iff, false_imp_iff, or_false]
      decide
  · by_cases hq : q
    · simp only [hp, hq, if_true, if_false, true_imp_iff, false_imp_iff, or_true]
      decide
    · simp only [hp, hq, if_false, false_imp_iff, or_false, true_and]

theorem initAtom_announced : Announced d (d.initAtom mode type editor storeSize storeType).2.1
    (d.initAtom mode type editor storeSize storeType).2.2 := by
  have hdatum := @initAtom_datum d mode type editor storeSize storeType
  by_cases hsame : (d.initAtom mode type editor storeSize storeType).2.1 = d
  · exact .inl hsame.symm
  right
  unfold initAtom at hdatum hsame ⊢
  simp only at hdatum hsame ⊢
  -- the two steps, with the status that each of them has
  generalize hlength : (if mode &&& IDatum.eraseDatum ≠ 0 then d.sizeLocked else -1) = length
    at hdatum hsame ⊢
  generalize herase : (if mode &&& IDatum.eraseDatum ≠ 0 ∧ length ≠ 0 then
    d.storeSizeLocked storeSize 0 else (-1, d)) = erased at hdatum hsame ⊢
  obtain ⟨err, d1⟩ := erased
  generalize htype : (if type ≠ 0 ∧ d1.type ≠ type then d1.storeValueTypeLocked storeType type
    else (-1, d1)) = typed at hdatum hsame ⊢
  obtain ⟨err', d2⟩ := typed
  have hd1 : err ≠ 0 → d1 = d := by
    intro hne
    split at herase
    · rcases d.storeSizeLocked_cases storeSize 0 with ⟨e, -, heq⟩ | ⟨m, -, -, heq⟩
      · exact (Prod.mk.inj (heq.symm.trans herase)).2.symm
      · exact absurd (Prod.mk.inj (heq.symm.trans herase)).1.symm hne
    · exact (Prod.mk.inj herase).2.symm
  have hd1type : d1.type = d.type := by
    split at herase
    · rcases d.storeSizeLocked_cases storeSize 0 with ⟨e, -, heq⟩ | ⟨m, -, -, heq⟩
      · exact congrArg BStreamDatum.type (Prod.mk.inj (herase.symm.trans heq)).2
      · rw [(Prod.mk.inj (herase.symm.trans heq)).2, resized]
    · exact congrArg BStreamDatum.type (Prod.mk.inj herase).2.symm
  have hd2 : err' ≠ 0 → d2 = d1 := by
    intro hne
    split at htype
    · rcases storeType with _ | e
      · exact absurd (Prod.mk.inj htype).1.symm hne
      · exact (Prod.mk.inj htype).2.symm
    · exact (Prod.mk.inj htype).2.symm
  have hd2bytes : d2.bytes = d1.bytes := by
    split at htype
    · rcases storeType with _ | e
      · rw [← (Prod.mk.inj htype).2]
      · rw [← (Prod.mk.inj htype).2]
    · exact congrArg bytes (Prod.mk.inj htype).2.symm
  have hlen : err = 0 → length = d.sizeLocked := by
    intro h0
    split at herase
    · rename_i hcond
      rw [← hlength, if_pos hcond.1]
    · exact absurd ((Prod.mk.inj herase).1.trans h0) (by decide)
  obtain ⟨hsizeFlag, htypeFlag, hsome⟩ := initAtom_flags (err = 0) (err' = 0)
  have hany : err = 0 ∨ err' = 0 := by
    by_contra hnone
    obtain ⟨h, h'⟩ := not_or.1 hnone
    exact hsame ((hd2 h').trans (hd1 h))
  rw [if_pos (hsome hany)]
  have hbytes : d.bytes ≠ d2.bytes → err = 0 := by
    intro hne
    by_contra h
    exact hne (by rw [hd2bytes, hd1 h])
  refine ⟨_, mem_singleton_self _, fun hne => htypeFlag ?_, fun hne => (hsizeFlag ?_).1,
    fun hne => (hsizeFlag (hbytes hne)).2, fun i hi => ?_⟩
  · by_contra h
    exact hne (by rw [hd2 h, hd1type])
  · exact hbytes fun h => hne (by rw [sizeLocked, sizeLocked, h])
  · have h0 := hbytes fun h => hi (by rw [h])
    have hnil : d2.bytes = [] := by
      rw [hd2bytes]
      split at herase
      · rcases d.storeSizeLocked_cases storeSize 0 with ⟨e, he, heq⟩ | ⟨m, -, -, heq⟩
        · exact absurd ((Prod.mk.inj (heq.symm.trans herase)).1.trans h0) he
        · obtain rfl := (Prod.mk.inj (heq.symm.trans herase)).2
          exact length_eq_zero_iff.1 ((length_resized _).trans (Nat.min_zero m))
      · exact absurd ((Prod.mk.inj herase).1.trans h0) (by decide)
    have hlt : i < d.bytes.length := by
      by_contra hge
      rw [hnil, List.getElem?_eq_none (by omega)] at hi
      exact hi rfl
    rw [hlen h0, sizeLocked]
    exact ⟨Int.natCast_nonneg i, by simpa using hlt⟩

theorem openStream_announced {m_mode : BitVec 32} :
    Announced d (d.openStream m_mode mode editor type storeSize storeType).2.1
      (d.openStream m_mode mode editor type storeSize storeType).2.2 := by
  unfold openStream
  simp only
  split
  · exact announced_same
  · exact initAtom_announced

theorem announced_of_covered {w : World} {a : Act} (h : Covered w a) : w.Announces a := by
  intro w' reports heq
  rcases a with ⟨type, store⟩ | ⟨size, store⟩ | ⟨value, store⟩ | ⟨mode, editor, newType, size, type⟩ |
    ⟨i, op⟩
  · obtain ⟨⟩ := heq
    exact setValueType_announced store type
  · obtain ⟨⟩ := heq
    exact setSize_announced store size
  · obtain ⟨⟩ := heq
    exact setValue_announced h
  · obtain ⟨⟩ := heq
    exact openStream_announced
  · obtain ⟨s, hs, hrest⟩ := Option.bind_eq_some_iff.1 heq
    obtain ⟨⟩ := hrest
    have hop := h s hs
    rcases op with _ | ⟨parts, flags, start⟩ | _ | _ | _ | _ | ⟨size, store⟩ | ⟨position, vector, start⟩ |
      ⟨position, parts, start⟩
    case writeV => exact writeV_announced hop
    case setSize =>
      simp only [Stream.perform, Stream.setSize]
      split
      · exact setSize_announced store size
      · exact announced_same
    case readAtV =>
      simp only [Stream.perform, Stream.readAtV]
      split <;> exact announced_same
    case writeAtV =>
      simp only [Stream.perform, Stream.writeAtV]
      split
      · rename_i hwrites
        exact .inl (writeAtV_announced (hop hwrites)).symm
      · exact announced_same
    all_goals exact announced_same

/-- **Every change is announced** in a run of operations that are `Covered`. -/
theorem announces_of_covered (w : World) (acts : List Act)
    (h : AllSteps World.step Covered w acts) : AllSteps World.step World.Announces w acts :=
  AllSteps.imp (I := fun _ => True) (fun _ _ _ _ _ hq => ⟨announced_of_covered hq, trivial⟩) acts w
    trivial h

theorem announces_of_covered_write :
    let room : Room := ⟨2, fun _ => 0, true⟩
    AllSteps World.step World.Announces ⟨⟨1, [5]⟩, IDatum.readWrite, []⟩
      [.open IDatum.readWrite none 0 (.ok 0) none, .stream 0 (.writeV [[6], [7]] 0 (some room))] := by
  refine announces_of_covered _ _ (AllSteps.cons rfl trivial (AllSteps.cons rfl ?_ trivial))
  intro s hs hsum room hroom hstores
  obtain ⟨⟩ := hs
  obtain ⟨⟩ := hroom
  exact ⟨Or.inl (by decide), by decide, fun h => absurd h (by decide)⟩

/-- `WriteAtV` reports nothing of what it writes. -/
theorem writeAtV_not_announced :
    let room : Room := ⟨1, fun _ => 0, true⟩
    let w : World := ⟨⟨1, [5]⟩, IDatum.readWrite, [⟨IDatum.readWrite, none, 0⟩]⟩
    w.perform (.stream 0 (.writeAtV 0 [[6]] (some room))) = some ({ w with datum := ⟨1, [6]⟩ }, []) ∧
      ¬ AllSteps World.step World.Announces w [.stream 0 (.writeAtV 0 [[6]] (some room))] := by
  refine ⟨rfl, fun h => ?_⟩
  rcases (h _ rfl).1 _ _ rfl with hsame | ⟨r, hr, -⟩
  · exact absurd hsame (by decide)
  · exact absurd hr not_mem_nil

end OpenBinder.BStreamDatum
