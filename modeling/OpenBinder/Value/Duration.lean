import OpenBinder.Value.StringLookup
import OpenBinder.Xml.Entities
import Mathlib.Data.Nat.Digits.Defs

/-!
# Times from strings

`AsTime` of a string adds up numbers with units until it comes to something else.

* `decodeTime`: one number and its unit.
* `Duration.text`: numbers directly followed by their units, and `Duration.meaning` what they mean.
* `asTime_iff`: **the time is what the string means**, exactly when no number counts from the first
  unit on that `decode_time` does not know. It knows those of one and two letters, but no longer
  one without a letter behind it.
-/

namespace OpenBinder

open Lib Xml List

/-- `B_ONE_MICROSECOND`, in nanoseconds. -/
def oneMicrosecond : ℤ := 1000

def oneMillisecond : ℤ := oneMicrosecond * 1000

def oneSecond : ℤ := oneMillisecond * 1000

/-- Whether a character is a digit. -/
def isDigit (c : Byte) : Bool := decide (ascii '0' ≤ c ∧ c ≤ ascii '9')

/-- A number as an `int64_t`. -/
def toInt64 (n : ℤ) : ℤ := Int.bmod n (2 ^ 64)

/-- The number that digits are. -/
def digitsNumber (digits : List Byte) : ℕ :=
  digits.foldl (fun n c => 10 * n + (c.toNat - (ascii '0').toNat)) 0

/-- `strtoll` with the base `10`, of digits. -/
def strtoll (digits : List Byte) : ℤ := min (digitsNumber digits) (2 ^ 63 - 1)

/-- The factor of the unit that `decode_time` found, which is zero if it is none. -/
def unitFactor (unit : List Byte) : ℤ :=
  if unit.length = 0 then 1
  else if unit.length = 1 then
    if unit = literal ['d'] then oneSecond * 60 * 60 * 24
    else if unit = literal ['h'] then oneSecond * 60 * 60
    else if unit = literal ['m'] then oneSecond * 60
    else if unit = literal ['s'] then oneSecond
    else 0
  else if unit.length = 2 then
    if unit = literal ['m', 's'] then oneMillisecond
    else if unit = literal ['u', 's'] then oneMicrosecond
    else if unit = literal ['n', 's'] then 1
    else 0
  else if unit.length = 4 then
    if unit.take 3 = literal ['d', 'a', 'y'] then oneSecond * 60 * 60 * 24
    else if unit.take 3 = literal ['m', 'i', 'n'] then oneSecond * 60
    else if unit.take 3 = literal ['s', 'e', 'c'] then oneSecond
    else 0
  else if unit.length = 4 then
    -- the length was compared before, so that none of these is looked for
    if unit = literal ['h', 'o', 'u', 'r'] then oneMillisecond * 60 * 60
    else if unit = literal ['m', 's', 'e', 'c'] then oneMillisecond
    else if unit = literal ['u', 's', 'e', 'c'] then oneMicrosecond
    else if unit = literal ['n', 's', 'e', 'c'] then 1
    else 0
  else 0

/-- Whether a character goes on with a unit. -/
def isUnit (c : Byte) : Bool := !isSpace c && !isDigit c

/-- `decode_time`: what is left of the string, and the time. -/
def decodeTime (str : List Byte) (inoutTime : ℤ) : Option (List Byte × ℤ) :=
  let num := str.dropWhile isSpace
  let digits := num.takeWhile isDigit
  if digits = [] then none
  else
    let unit := (num.dropWhile isDigit).dropWhile isSpace
    let factor := unitFactor (unit.takeWhile isUnit)
    if factor = 0 then none
    else some (unit.dropWhile isUnit, toInt64 (inoutTime + toInt64 (strtoll digits * factor)))

/-- The loop of `AsTime`, which takes a digit of the string each time: the time, and whether it got
something. -/
def decodeLoop : ℕ → List Byte → ℤ → Bool → ℤ × Bool
  | 0, _, val, gotSomething => (val, gotSomething)
  | fuel + 1, ex, val, gotSomething =>
    match decodeTime ex val with
    | some (ex, val) => decodeLoop fuel ex val true
    | none => (val, gotSomething)

namespace SValue

/-- `SValue::AsTime`: the time, and whether the result is `B_OK`. `parse` is what floating point
numbers are converted to. -/
def asTime (parse : SValue → Option ℤ) (v : SValue) : ℤ × Bool :=
  let code := unpackTypeCode v.mType
  if code = stringType then
    let ex := (v.bytes.getD []).takeWhile (· ≠ 0)
    decodeLoop (ex.length + 1) ex 0 false
  else
    let n := if code = doubleType ∨ code = floatType then parse v else v.number
    (n.getD 0, n.isSome)

end SValue

/-! ### Numbers with units -/

/-- The units that `decode_time` has a spelling for, and their spellings. -/
inductive Spelling where
  | d
  | day
  | h
  | hour
  | m
  | min
  | s
  | sec
  | ms
  | msec
  | us
  | usec

namespace Spelling

/-- How it is spelt. -/
def chars : Spelling → List Char
  | d => ['d']
  | day => ['d', 'a', 'y']
  | h => ['h']
  | hour => ['h', 'o', 'u', 'r']
  | m => ['m']
  | min => ['m', 'i', 'n']
  | s => ['s']
  | sec => ['s', 'e', 'c']
  | ms => ['m', 's']
  | msec => ['m', 's', 'e', 'c']
  | us => ['u', 's']
  | usec => ['u', 's', 'e', 'c']

/-- The length of the unit, in nanoseconds. -/
def length : Spelling → ℤ
  | d | day => 24 * 60 * 60 * oneSecond
  | h | hour => 60 * 60 * oneSecond
  | m | min => 60 * oneSecond
  | s | sec => oneSecond
  | ms | msec => oneMillisecond
  | us | usec => oneMicrosecond

/-- Whether it is a single letter, or two. -/
def isShort (unit : Spelling) : Bool := unit.chars.length ≤ 2

end Spelling

/-- A number, by its digits, and a unit. -/
structure Duration where
  digits : List (Fin 10)
  unit : Spelling
  digits_ne : digits ≠ []

namespace Duration

/-- The number. -/
def number (x : Duration) : ℕ := Nat.ofDigits 10 (x.digits.reverse.map Fin.val)

/-- A number that is directly followed by its unit. -/
def chars (x : Duration) : List Byte :=
  (x.digits.map fun i => ascii '0' + BitVec.ofNat 8 i.val) ++ literal x.unit.chars

/-- What it is written as, and others behind it. -/
def text (l : List Duration) : List Byte := l.flatMap chars

/-- **What they mean**: the sum of the numbers times the lengths of the units. -/
def meaning : List Duration → ℤ
  | [] => 0
  | x :: l => x.number * x.unit.length + meaning l

/-- **Every unit that counts is short**: the first one is, and the numbers from the first long one on
are all zero. -/
def IsDecoded (l : List Duration) : Prop :=
  (∀ x ∈ l.head?, x.unit.isShort = true) ∧
    ∀ x ∈ l.dropWhile (fun x => x.unit.isShort), x.number = 0

/-! ### A string is decoded -/

theorem isDigit_digit (i : Fin 10) : isDigit (ascii '0' + BitVec.ofNat 8 i.val) = true ∧
    isSpace (ascii '0' + BitVec.ofNat 8 i.val) = false ∧ ascii '0' + BitVec.ofNat 8 i.val ≠ 0 ∧
    (ascii '0' + BitVec.ofNat 8 i.val).toNat - (ascii '0').toNat = i.val := by
  revert i
  decide

theorem isUnit_chars (unit : Spelling) : ∀ c ∈ literal unit.chars, isUnit c = true ∧ c ≠ 0 := by
  cases unit <;> decide

theorem unitFactor_chars (unit : Spelling) :
    unitFactor (literal unit.chars) = if unit.isShort then unit.length else 0 := by
  cases unit <;> decide

theorem length_pos (unit : Spelling) : 0 < unit.length := by
  cases unit <;> decide

theorem digitsNumber_digits (digits : List (Fin 10)) :
    digitsNumber (digits.map fun i => ascii '0' + BitVec.ofNat 8 i.val) =
      Nat.ofDigits 10 (digits.reverse.map Fin.val) := by
  induction digits using List.reverseRecOn with
  | nil => rfl
  | append_singleton digits i ih =>
    unfold digitsNumber at ih ⊢
    rw [map_append, foldl_append, ih, reverse_append, map_append]
    obtain ⟨-, -, -, hval⟩ := isDigit_digit i
    simp only [map_cons, map_nil, foldl_cons, foldl_nil, reverse_cons,
      reverse_nil, nil_append, cons_append]
    rw [Nat.ofDigits_cons, hval]
    omega

/-- A string that does not go on with the unit in front of it. -/
def Follows (rest : List Byte) : Prop := ∀ c ∈ rest.head?, isUnit c = false

theorem dropWhile_of_head {p : Byte → Bool} {l : List Byte} (h : ∀ c ∈ l.head?, p c = false) :
    l.dropWhile p = l ∧ l.takeWhile p = [] := by
  cases l with
  | nil => exact ⟨rfl, rfl⟩
  | cons c l =>
    have hc := h c rfl
    exact ⟨dropWhile_cons_of_neg (by simp [hc]), takeWhile_cons_of_neg (by simp [hc])⟩

theorem decodeTime_append {ds us rest : List Byte} (hds0 : ds ≠ []) (hus0 : us ≠ [])
    (hdigit : ∀ c ∈ ds, isDigit c = true ∧ isSpace c = false) (hunit : ∀ c ∈ us, isUnit c = true)
    (hrest : Follows rest) (val : ℤ) : decodeTime (ds ++ (us ++ rest)) val =
      if unitFactor us = 0 then none
      else some (rest, toInt64 (val + toInt64 (strtoll ds * unitFactor us))) := by
  have hspace : (ds ++ (us ++ rest)).dropWhile isSpace = ds ++ (us ++ rest) := by
    refine (dropWhile_of_head ?_).1
    obtain ⟨c, ds', hc⟩ := exists_cons_of_ne_nil hds0
    rw [hc]
    intro c' hc'
    obtain ⟨⟩ := hc'
    exact (hdigit c (hc ▸ mem_cons_self)).2
  have hhead : ∀ c ∈ (us ++ rest).head?, isSpace c = false ∧ isDigit c = false := by
    obtain ⟨c, us', hc⟩ := exists_cons_of_ne_nil hus0
    rw [hc]
    intro c' hc'
    obtain ⟨⟩ := hc'
    have hfirst := hunit c (hc ▸ mem_cons_self)
    simpa [isUnit] using hfirst
  obtain ⟨hdrop, htake⟩ := @dropWhile_of_head isDigit (us ++ rest) fun c hc => (hhead c hc).2
  obtain ⟨hstart, -⟩ := @dropWhile_of_head isSpace (us ++ rest) fun c hc => (hhead c hc).1
  obtain ⟨hrdrop, hrtake⟩ := dropWhile_of_head hrest
  have hdigits : (ds ++ (us ++ rest)).takeWhile isDigit = ds := by
    rw [takeWhile_append_of_pos fun c hc => (hdigit c hc).1, htake, append_nil]
  have hunits : (us ++ rest).takeWhile isUnit = us := by
    rw [takeWhile_append_of_pos hunit, hrtake, append_nil]
  rw [decodeTime, hspace, hdigits, if_neg hds0,
    dropWhile_append_of_pos fun c hc => (hdigit c hc).1, hdrop]
  dsimp only
  rw [hstart, hunits, dropWhile_append_of_pos hunit, hrdrop]

theorem decodeTime_chars (x : Duration) {rest : List Byte} (hrest : Follows rest) (val : ℤ) :
    decodeTime (x.chars ++ rest) val =
      if x.unit.isShort then
        some (rest, toInt64 (val + toInt64 (min (x.number : ℤ) (2 ^ 63 - 1) * x.unit.length)))
      else none := by
  have hdigit : ∀ c ∈ x.digits.map fun i => ascii '0' + BitVec.ofNat 8 i.val,
      isDigit c = true ∧ isSpace c = false := by
    intro c hc
    obtain ⟨i, -, rfl⟩ := mem_map.1 hc
    exact ⟨(isDigit_digit i).1, (isDigit_digit i).2.1⟩
  have hdigits := digitsNumber_digits x.digits
  have hpos := length_pos x.unit
  rw [chars, append_assoc, decodeTime_append (by simpa using x.digits_ne)
    (by cases x.unit <;> decide) hdigit (fun c hc => (isUnit_chars x.unit c hc).1) hrest,
    unitFactor_chars, strtoll, hdigits]
  split
  · rw [if_neg (by omega)]
    rfl
  · rw [if_pos rfl]

theorem follows_text (l : List Duration) : Follows (text l) := by
  cases l with
  | nil => intro c hc; cases hc
  | cons x l =>
    obtain ⟨digits, unit, hne⟩ := x
    obtain ⟨i, ds, rfl⟩ := exists_cons_of_ne_nil hne
    intro c hc
    obtain ⟨⟩ := hc
    simp [isUnit, (isDigit_digit i).1]

theorem meaning_nonneg (l : List Duration) : 0 ≤ meaning l := by
  induction l with
  | nil => exact le_rfl
  | cons x l ih =>
    have hpos := length_pos x.unit
    have hterm : 0 ≤ (x.number : ℤ) * x.unit.length := by positivity
    rw [meaning]
    omega

theorem toInt64_of_lt {n : ℤ} (h0 : 0 ≤ n) (h : n < 2 ^ 63) : toInt64 n = n :=
  Int.bmod_eq_of_le (by omega) (by omega)

theorem text_cons (x : Duration) (l : List Duration) : text (x :: l) = x.chars ++ text l := rfl

theorem decodeLoop_text : ∀ (l : List Duration) (fuel : ℕ) (val : ℤ) (gotSomething : Bool),
    l.length < fuel → 0 ≤ val → val + meaning l < 2 ^ 63 →
      decodeLoop fuel (text l) val gotSomething =
        (val + meaning (l.takeWhile fun x => x.unit.isShort),
          gotSomething || l.head?.any fun x => x.unit.isShort) := by
  intro l
  induction l with
  | nil =>
    intro fuel val gotSomething hfuel _ _
    obtain ⟨fuel, rfl⟩ := Nat.exists_eq_add_of_lt hfuel
    simp [decodeLoop, text, decodeTime, meaning]
  | cons x l ih =>
    intro fuel val gotSomething hfuel h0 hlt
    obtain ⟨fuel, rfl⟩ : ∃ n, fuel = n + 1 := ⟨fuel - 1, by omega⟩
    rw [text_cons, decodeLoop, decodeTime_chars x (follows_text l)]
    by_cases hshort : x.unit.isShort = true
    · have hpos := length_pos x.unit
      have hrest := meaning_nonneg l
      rw [meaning] at hlt
      have hle : (x.number : ℤ) ≤ x.number * x.unit.length := by nlinarith
      have hterm : toInt64 (x.number * x.unit.length) = x.number * x.unit.length :=
        toInt64_of_lt (by omega) (by omega)
      have htake : (x :: l).takeWhile (fun x => x.unit.isShort) =
          x :: l.takeWhile fun x => x.unit.isShort := takeWhile_cons_of_pos hshort
      rw [if_pos hshort, min_eq_left (by omega), hterm,
        toInt64_of_lt (by omega) (by omega)]
      dsimp only
      rw [ih fuel _ true (by simpa using hfuel) (by omega) (by omega), htake, meaning]
      simp [hshort, add_assoc]
    · have htake : (x :: l).takeWhile (fun x => x.unit.isShort) = [] :=
        takeWhile_cons_of_neg hshort
      rw [if_neg hshort, htake]
      simp [meaning, hshort]

theorem chars_ne_zero (x : Duration) : ∀ c ∈ x.chars, c ≠ 0 := by
  intro c hc
  rcases mem_append.1 hc with hc | hc
  · obtain ⟨i, -, rfl⟩ := mem_map.1 hc
    exact (isDigit_digit i).2.2.1
  · exact (isUnit_chars x.unit c hc).2

theorem length_le_text (l : List Duration) : l.length ≤ (text l).length := by
  induction l with
  | nil => exact le_rfl
  | cons x l ih =>
    have hpos : 0 < x.digits.length := length_pos_of_ne_nil x.digits_ne
    rw [text_cons, length_append, length_cons, chars, length_append, length_map]
    omega

/-- **`AsTime` of what is written**: the numbers in front of the first long unit. -/
theorem asTime_text (parse : SValue → Option ℤ) {l : List Duration} (hlt : meaning l < 2 ^ 63) :
    (stringValue (text l)).asTime parse = (meaning (l.takeWhile fun x => x.unit.isShort),
      l.head?.any fun x => x.unit.isShort) := by
  have hcode : unpackTypeCode (stringValue (text l)).mType = stringType := by
    rw [SValue.mType_stringValue, SValue.packType]
    split
    · rename_i hle
      rw [unpackTypeCode_packSmallType _ hle]
      decide
    · rw [unpackTypeCode_packLargeType]
      decide
  have hbytes : (stringValue (text l)).bytes = some (text l ++ [0]) := SValue.bytes_ofBytes _ _
  have hchars : (text l ++ [(0 : Byte)]).takeWhile (· ≠ 0) = text l := by
    rw [takeWhile_append_of_pos, takeWhile_cons_of_neg (by simp), append_nil]
    intro c hc
    obtain ⟨x, -, hx⟩ := mem_flatMap.1 hc
    exact decide_eq_true (chars_ne_zero x c hx)
  have hlength := length_le_text l
  rw [SValue.asTime, if_pos hcode, hbytes, Option.getD_some, hchars,
    decodeLoop_text l _ 0 false (by omega) le_rfl (by omega), zero_add, Bool.false_or]

theorem meaning_append (l l' : List Duration) : meaning (l ++ l') = meaning l + meaning l' := by
  induction l with
  | nil => exact (zero_add _).symm
  | cons x l ih => rw [cons_append, meaning, meaning, ih, add_assoc]

theorem meaning_eq_zero (l : List Duration) : meaning l = 0 ↔ ∀ x ∈ l, x.number = 0 := by
  induction l with
  | nil => simp [meaning]
  | cons x l ih =>
    have hpos := length_pos x.unit
    have hrest := meaning_nonneg l
    have hterm : 0 ≤ (x.number : ℤ) * x.unit.length := by positivity
    rw [forall_mem_cons, ← ih, meaning]
    constructor
    · intro h
      have hzero : (x.number : ℤ) * x.unit.length = 0 := by omega
      refine ⟨?_, by omega⟩
      exact_mod_cast (mul_eq_zero.1 hzero).resolve_right (by omega)
    · rintro ⟨hx, hl⟩
      rw [hx, hl]
      simp

/-- **The time is what the string means** exactly when every unit that counts is short. -/
theorem asTime_iff (parse : SValue → Option ℤ) {l : List Duration} (hl : l ≠ [])
    (hlt : meaning l < 2 ^ 63) :
    (stringValue (text l)).asTime parse = (meaning l, true) ↔ IsDecoded l := by
  have hsplit := meaning_append (l.takeWhile fun x => x.unit.isShort)
    (l.dropWhile fun x => x.unit.isShort)
  rw [takeWhile_append_dropWhile] at hsplit
  obtain ⟨x, l', rfl⟩ := exists_cons_of_ne_nil hl
  rw [asTime_text parse hlt, Prod.mk.injEq, IsDecoded, ← meaning_eq_zero, and_comm]
  refine and_congr ?_ ?_
  · simp
  · omega

/-- `1m30s500ms`, with its numbers as the digits `1`, `30` and `500`. -/
theorem asTime_short :
    let l : List Duration := [⟨[1], .m, by decide⟩, ⟨[3, 0], .s, by decide⟩,
      ⟨[5, 0, 0], .ms, by decide⟩]
    (stringValue (text l)).asTime (fun _ => none) = (meaning l, true) ∧ meaning l = 90500000000 := by
  intro l
  have hmeaning : meaning l = 90500000000 := by decide
  refine ⟨(asTime_iff (fun _ => none) (cons_ne_nil _ _)
    (lt_of_eq_of_lt hmeaning (by decide))).2 ?_, hmeaning⟩
  exact ⟨by decide, by decide⟩

/-- `2s3hour` is two seconds, and `1day` is no time. -/
theorem asTime_long : ¬ ∀ (parse : SValue → Option ℤ) (l : List Duration), l ≠ [] →
    meaning l < 2 ^ 63 → (stringValue (text l)).asTime parse = (meaning l, true) := by
  intro h
  have hhour := h (fun _ => none) [⟨[2], .s, by decide⟩, ⟨[3], .hour, by decide⟩] (by decide)
    (by decide)
  exact absurd hhour (by decide +kernel)

end Duration

end OpenBinder
