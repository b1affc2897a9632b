import OpenBinder.Lib.Word

/-!
# Searching in strings

The searches of `SString`. A string is its characters, with a zero behind them; the functions go by
the length of the string or by the zero, as in the source. Characters are of any type here, with what
makes them lower case.

* `shortFindAfter`, `findAfter`: the two searches forwards, the second one with a table.
* `findBefore`: the search backwards.
* `findFirst`, `findLast`, `iFindFirst`, `iFindLast` and their overloads: a pattern that is an
  `SString`, or a `const char *`, with an offset or without.
-/

namespace OpenBinder.SString

open Lib

def kShortFindAfterTreshold : ℕ := 100 * 1024

section Characters

variable {α : Type*} [DecidableEq α] (nul : α)

def strlen (str : List α) : ℕ := (str.takeWhile (· ≠ nul)).length

/-- The loop that compares a string with a pattern: whether it stops at the zero of the pattern.
Searches forwards ask for the zero of the string, which is there where that of the pattern is. -/
def compares (lower : α → α) : List α → List α → Bool
  | c1 :: s2, c2 :: p2 =>
    if lower c1 = c2 ∧ c2 ≠ nul then compares lower s2 p2 else decide (c2 = nul)
  | _, _ => false

/-- The loop over the string, from the character at an index on. -/
def scanAfter (lower : α → α) (firstc : α) (p1 : List α) : List α → ℕ → ℤ
  | [], _ => -1
  | c1 :: s1, index =>
    if c1 = nul then -1
    else if lower c1 = firstc ∧ compares nul lower s1 p1 then index
    else scanAfter lower firstc p1 s1 (index + 1)

/-- The search that goes by the zeros. -/
def searchAfter (lower : α → α) (s : List α) : List α → ℕ → ℤ
  | [], _ => 0
  | firstc :: p1, fromOffset =>
    if firstc = nul then 0
    else scanAfter nul lower firstc (p1 ++ [nul]) ((s ++ [nul]).drop fromOffset) fromOffset

def shortFindAfter (s str : List α) (fromOffset : ℕ) : ℤ := searchAfter nul id s str fromOffset

def iFindAfter (lower : α → α) (s str : List α) (length fromOffset : ℕ) : ℤ :=
  searchAfter nul lower s ((str.take length).map lower) fromOffset

/-- The character at an index of a string, or the zero behind it. -/
def charAt (s : List α) (i : ℕ) : α := s.getD i nul

/-- The loop that fills `next`. -/
def nextLoop (str : ℕ → α) (length : ℕ) : ℕ → (ℕ → ℤ) → ℕ → ℤ → Option (ℕ → ℤ)
  | 0, _, _, _ => none
  | fuel + 1, next, i, j =>
    if j = -1 ∨ str i = str j.toNat then
      let i := i + 1
      let j := j + 1
      let next := Function.update next i (if str j.toNat = str i then next j.toNat else j)
      if i < length then nextLoop str length fuel next i j else some next
    else nextLoop str length fuel next i (next j.toNat)

/-- The loop over the string, with `next`. -/
def kmpLoop (str : ℕ → α) (length : ℕ) (next : ℕ → ℤ) (s : ℕ → α) (stringLength : ℕ) :
    ℕ → ℕ → ℤ → Option ℤ
  | 0, _, _ => none
  | fuel + 1, ii, jj =>
    if ii < stringLength then
      if jj = -1 ∨ str jj.toNat = s ii then
        let ii := ii + 1
        let jj := jj + 1
        if length ≤ jj then some (ii - jj) else kmpLoop str length next s stringLength fuel ii jj
      else kmpLoop str length next s stringLength fuel ii (next jj.toNat)
    else some (-1)

/-- `SString::_FindAfter`; `none` if a loop does not end in as many steps as there are symbols for. -/
def findAfter (s str : List α) (length fromOffset : ℕ) : Option ℤ :=
  if length > s.length then some (-1)
  else do
    let next ← nextLoop (charAt nul str) length (2 * length + 1) (fun _ => -1) 0 (-1)
    kmpLoop (charAt nul str) length next (charAt nul s) s.length (2 * s.length + 2) fromOffset 0

/-- The loop of the searches backwards, from the position in front of an index on. -/
def scanBefore (lower : α → α) (s pat : List α) : ℕ → ℤ
  | 0 => -1
  | s1 + 1 =>
    if compares nul lower ((s ++ [nul]).drop s1) (pat ++ [nul]) then s1
    else scanBefore lower s pat s1

def findBefore (s str : List α) (length beforeOffset : ℕ) : ℤ :=
  scanBefore nul id s str (beforeOffset - length + 1)

def iFindBefore (lower : α → α) (s str : List α) (length beforeOffset : ℕ) : ℤ :=
  scanBefore nul lower s ((str.take length).map lower) (beforeOffset - length + 1)

/-! ### Forwards -/

/-- `SString::FindFirst(const SString &)`. -/
def findFirst (s pattern : List α) : Option ℤ :=
  if pattern.length = 0 then some 0
  else if pattern.length > s.length then some (-1)
  else if s.length < kShortFindAfterTreshold then some (shortFindAfter nul s pattern 0)
  else findAfter nul s pattern pattern.length 0

/-- `SString::FindFirst(const char *)`. -/
def findFirstChars (s str : List α) : ℤ :=
  if s.length = 0 then -1 else shortFindAfter nul s str 0

/-- `SString::FindFirst(const char *, int32_t)`. -/
def findFirstCharsFrom (s str : List α) (fromOffset : ℕ) : ℤ :=
  if s.length - fromOffset ≤ 0 then -1 else shortFindAfter nul s str fromOffset

/-- `SString::FindFirst(const SString &, int32_t)`. -/
def findFirstFrom (s pattern : List α) (fromOffset : ℕ) : Option ℤ :=
  if s.length = 0 then some (-1)
  else if pattern.length = 0 then some 0
  else if pattern.length > s.length - fromOffset then some (-1)
  else if s.length < kShortFindAfterTreshold then some (shortFindAfter nul s pattern fromOffset)
  else findAfter nul s pattern pattern.length fromOffset

/-- The four `IFindFirst`, which differ in how they come to the length of the pattern. Without an
offset it is 0. -/
def iFindFirstLength (lower : α → α) (s str : List α) (patternLength fromOffset : ℕ) : ℤ :=
  if s.length = 0 then -1
  else if patternLength = 0 then 0
  else if patternLength > s.length - fromOffset then -1
  else iFindAfter nul lower s str patternLength fromOffset

/-- `SString::IFindFirst(const SString &, int32_t)`. -/
def iFindFirst (lower : α → α) (s pattern : List α) (fromOffset : ℕ) : ℤ :=
  iFindFirstLength nul lower s pattern pattern.length fromOffset

/-- `SString::IFindFirst(const char *, int32_t)`. -/
def iFindFirstChars (lower : α → α) (s str : List α) (fromOffset : ℕ) : ℤ :=
  iFindFirstLength nul lower s str (strlen nul str) fromOffset

/-! ### Backwards -/

/-- `SString::FindLast(const SString &)`. -/
def findLast (s pattern : List α) : ℤ :=
  if s.length = 0 then -1
  else if pattern.length = 0 then 0
  else if pattern.length > s.length then -1
  else findBefore nul s pattern pattern.length s.length

/-- `SString::FindLast(const char *)`. It does not ask whether the pattern is empty. -/
def findLastChars (s str : List α) : ℤ :=
  if s.length = 0 then -1
  else if strlen nul str > s.length then -1
  else findBefore nul s str (strlen nul str) s.length

/-- A limit that is not behind the string. -/
def limited (s : List α) (beforeOffset : ℤ) : ℤ :=
  if beforeOffset > s.length then s.length else beforeOffset

/-- `SString::FindLast(const SString &, int32_t)`. -/
def findLastBefore (s pattern : List α) (beforeOffset : ℤ) : ℤ :=
  if s.length = 0 then -1
  else if pattern.length = 0 then 0
  else if pattern.length > limited s beforeOffset then -1
  else findBefore nul s pattern pattern.length (limited s beforeOffset).toNat

/-- `SString::FindLast(const char *, int32_t)`. -/
def findLastCharsBefore (s str : List α) (beforeOffset : ℤ) : ℤ :=
  if s.length = 0 then -1
  else if strlen nul str = 0 then 0
  else if strlen nul str > limited s beforeOffset then -1
  else findBefore nul s str (strlen nul str) (limited s beforeOffset).toNat

/-- `SString::IFindLast(const SString &)`. -/
def iFindLast (lower : α → α) (s pattern : List α) : ℤ :=
  if s.length = 0 then -1
  else if pattern.length = 0 then 0
  else if pattern.length > s.length then -1
  else iFindBefore nul lower s pattern pattern.length s.length

/-- `SString::IFindLast(const char *)`. It does not ask whether the pattern is empty. -/
def iFindLastChars (lower : α → α) (s str : List α) : ℤ :=
  if s.length = 0 then -1
  else if strlen nul str > s.length then -1
  else iFindBefore nul lower s str (strlen nul str) s.length

/-- `SString::IFindLast(const SString &, int32_t)`. -/
def iFindLastBefore (lower : α → α) (s pattern : List α) (beforeOffset : ℤ) : ℤ :=
  if s.length = 0 then -1
  else if pattern.length = 0 then 0
  else if pattern.length > limited s beforeOffset then -1
  else iFindBefore nul lower s pattern pattern.length (limited s beforeOffset).toNat

/-- `SString::IFindLast(const char *, int32_t)`. -/
def iFindLastCharsBefore (lower : α → α) (s str : List α) (beforeOffset : ℤ) : ℤ :=
  if s.length = 0 then -1
  else if strlen nul str = 0 then 0
  else if strlen nul str > limited s beforeOffset then -1
  else iFindBefore nul lower s str (strlen nul str) (limited s beforeOffset).toNat

end Characters

/-- `UTF8SafeToLower`: `tolower` of a byte that is a character of its own. -/
def utf8SafeToLower (ch : Byte) : Byte :=
  if 0x41#8 ≤ ch ∧ ch ≤ 0x5a#8 then ch + 0x20#8 else ch

end OpenBinder.SString
