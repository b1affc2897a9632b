import OpenBinder.Xml.Context

/-!
# Strings and references

The members of `SString` that the parser uses, and the expansion of references in attributes and
in processing instructions.
-/

namespace OpenBinder.Xml

open Lib

def isSpace (c : Byte) : Bool := isWhitespace c || c = 0x0b || c = 0x0c

/-- The loop of `SString::Mush`, behind the first character that is kept. -/
def mushLoop (lastSpace : Bool) : List Byte → List Byte
  | [] => []
  | c :: rest =>
    if isSpace c then
      if lastSpace then mushLoop true rest
      else (if c = 0x0b ∨ c = 0x0c then c else ascii ' ') :: mushLoop true rest
    else c :: mushLoop false rest

/-- `SString::Mush`. -/
def mush (str : List Byte) : List Byte :=
  let mushed := mushLoop false (str.dropWhile isSpace)
  match mushed.getLast? with
  | some c => if isSpace c then mushed.dropLast else mushed
  | none => []

/-- `SString::StripWhitespace`. -/
def stripWhitespace (str : List Byte) : List Byte := str.filter fun c => !isSpace c

/-- `SString::AppendChar`, to an empty string. -/
def appendChar (unicode : BitVec 32) : List Byte :=
  let byte (first : BitVec 32) (shift : ℕ) : Byte :=
    (first ||| ((unicode >>> shift) &&& 0x3f#32)).setWidth 8
  if unicode = 0 then []
  else if unicode ≤ 0x0000007f#32 then [unicode.setWidth 8]
  else if unicode ≤ 0x000007ff#32 then [(0xc0#32 ||| (unicode >>> 6)).setWidth 8, byte 0x80#32 0]
  else if unicode ≤ 0x0000ffff#32 then
    [(0xe0#32 ||| (unicode >>> 12)).setWidth 8, byte 0x80#32 6, byte 0x80#32 0]
  else if unicode ≤ 0x001fffff#32 then
    [(0xf0#32 ||| (unicode >>> 18)).setWidth 8, byte 0x80#32 12, byte 0x80#32 6, byte 0x80#32 0]
  else []

def hex2dec (c : Byte) : BitVec 32 :=
  if ascii '0' ≤ c ∧ c ≤ ascii '9' then (c - ascii '0').setWidth 32
  else if ascii 'A' ≤ c ∧ c ≤ ascii 'F' then (c - ascii 'A' + 10).setWidth 32
  else if ascii 'a' ≤ c ∧ c ≤ ascii 'f' then (c - ascii 'a' + 10).setWidth 32
  else 0

/-- The digits at the start of a string, as a number. -/
def digits (n : ℕ) : List Byte → ℕ
  | [] => n
  | c :: rest =>
    if ascii '0' ≤ c ∧ c ≤ ascii '9' then digits (10 * n + (c - ascii '0').toNat) rest else n

/-- `atoi`, where a number that an `int` does not hold is the nearest one. -/
def atoi (str : List Byte) : BitVec 32 :=
  match str.dropWhile isSpace with
  | [] => 0
  | c :: rest =>
    if c = ascii '-' then BitVec.ofInt 32 (-(min (digits 0 rest) (2 ^ 31) : ℕ))
    else if c = ascii '+' then BitVec.ofNat 32 (min (digits 0 rest) (2 ^ 31 - 1))
    else BitVec.ofNat 32 (min (digits 0 (c :: rest)) (2 ^ 31 - 1))

/-- `expand_char_ref`, of a name that starts with `#`. -/
def expandCharRef (entity : List Byte) : List Byte :=
  let character :=
    if entity[1]? = some (ascii 'x') then
      (entity.drop 2).foldl (fun (character : BitVec 32) c => (character <<< 4) ||| hex2dec c) 0#32
    else atoi (entity.drop 1)
  appendChar character

/-- What the two loops over the references of a string have in common: the text before a reference
is copied, and what has no end is copied as it is. The name of a reference is replaced, where the
replacement of the last one is known. -/
def expandLoop (delimiter : Byte) (replace : List Byte → List Byte → List Byte) :
    ℕ → List Byte → List Byte → List Byte
  | 0, _, str => str
  | fuel + 1, entityVal, str =>
    let (before, found) := str.span (· ≠ delimiter)
    match found with
    | [] => str
    | _ :: behind =>
      let (entity, found) := behind.span (· ≠ ascii ';')
      match found with
      | [] => str
      | _ :: rest =>
        let entityVal := replace entityVal entity
        before ++ entityVal ++ expandLoop delimiter replace fuel entityVal rest

/-- `expand_char_refs`. The replacement of the last reference stands for a reference to an
entity. -/
def expandCharRefs (str : List Byte) : List Byte :=
  expandLoop (ascii '&') (fun entityVal entity =>
    if entity.head? = some (ascii '#') then expandCharRef entity else entityVal) str.length [] str

def expandEntities (str : List Byte) (delimiter : Byte) : List Byte :=
  expandLoop delimiter (fun _ entity =>
    if entity.head? = some (ascii '#') ∧ delimiter = ascii '&' then expandCharRef entity
    else if delimiter = ascii '%' then parameterReplacement entity
    else generalReplacement entity) str.length [] str

example : expandEntities (literal ['&', 'l', 't', ';', '&', '#', '6', '5', ';', '&', 'b'])
    (ascii '&') = literal ['<', 'A', '&', 'b'] := by decide

end OpenBinder.Xml
