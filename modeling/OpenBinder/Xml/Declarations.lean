import OpenBinder.Xml.Entities

/-!
# Declarations

The text of an entity declaration and that of a list of attributes are read a second time, from
their first character to the `NUL` behind the last one.

* `EntityDecl.step`, `handleEntityDecl`: the declaration of an entity, or the external subset.
* `AttributeDecl.step`, `attributeDeclLoop`: the declarations of attributes. Nothing keeps the loop
  from going on behind the `NUL` but its error variable.
-/

namespace OpenBinder.Xml

open Lib

/-- `parser_sub_state`. -/
inductive SubState where
  | inUnknown
  | inWhitespace
  | inName
  | readyForValue
  | inValue
  | inWhitespace1
  | inWhitespace2
  | inWhitespace3
  | inWhitespace4
  | inWhitespace5
  | inWhitespace7
  | inWhitespace8
  | inWhitespace9
  | inWhitespace10
  | inDoctypeName
  | inExternalID
  | inInternalParsedValue
  | inReadingNdata
  | inReadingPublicID
  | inReadingSystemID
  | inSpec
  | inReadingNotation
  | inEntityRef
  deriving DecidableEq

variable {σ : Type}

/-- What `handle_entity_decl` has read. -/
structure EntityDecl where
  subState : SubState
  publicID : List Byte
  systemID : List Byte
  internalData : List Byte
  spec : List Byte
  notation' : List Byte
  foundInternalData : Bool

namespace EntityDecl

def init : EntityDecl := ⟨.inWhitespace1, [], [], [], [], [], false⟩

/-- A character of an entity declaration. -/
def step (d : EntityDecl) (c : Byte) : Parse σ EntityDecl :=
  match d.subState with
  | .inWhitespace1 =>
    if c = ascii '"' then pure { d with subState := .inInternalParsedValue }
    else if c = ascii 'S' ∨ c = ascii 'P' then pure { d with spec := [c], subState := .inSpec }
    else if isWhitespace c then pure d
    else Parse.stop (.error xmlParseError)
  | .inInternalParsedValue =>
    if c = ascii '"' then pure { d with subState := .inWhitespace4, foundInternalData := true }
    else pure { d with internalData := d.internalData ++ [c] }
  | .inWhitespace4 => if isWhitespace c then pure d else Parse.stop (.error xmlParseError)
  | .inSpec =>
    if d.spec = literal ['P', 'U', 'B', 'L', 'I', 'C'] then pure { d with subState := .inWhitespace5 }
    else if d.spec = literal ['S', 'Y', 'S', 'T', 'E', 'M'] then
      pure { d with subState := .inWhitespace7 }
    else if isWhitespace c then Parse.stop (.error xmlParseError)
    else pure { d with spec := d.spec ++ [c] }
  | .inWhitespace5 =>
    if c = ascii '"' then pure { d with subState := .inReadingPublicID }
    else if isWhitespace c then pure d
    else Parse.stop (.error xmlEntityValueNoQuotes)
  | .inReadingPublicID =>
    if c = ascii '"' then pure { d with subState := .inWhitespace7 }
    else pure { d with publicID := d.publicID ++ [c] }
  | .inWhitespace7 =>
    if c = ascii '"' then pure { d with subState := .inReadingSystemID }
    else if isWhitespace c then pure d
    else Parse.stop (.error xmlEntityValueNoQuotes)
  | .inReadingSystemID =>
    if c = ascii '"' then pure { d with spec := [], subState := .inWhitespace8 }
    else pure { d with systemID := d.systemID ++ [c] }
  | .inWhitespace8 =>
    if c = ascii 'N' then pure { d with spec := d.spec ++ [c], subState := .inReadingNdata }
    else if isWhitespace c then pure d
    else Parse.stop (.error xmlParseError)
  | .inReadingNdata =>
    if d.spec = literal ['N', 'D', 'A', 'T', 'A'] then pure { d with subState := .inWhitespace9 }
    else if isWhitespace c then Parse.stop (.error xmlParseError)
    else pure { d with spec := d.spec ++ [c] }
  | .inWhitespace9 =>
    if isWhitespace c then pure d
    else pure { d with notation' := d.notation' ++ [c], subState := .inReadingNotation }
  | .inReadingNotation =>
    if isWhitespace c then pure { d with subState := .inWhitespace10 }
    else pure { d with notation' := d.notation' ++ [c] }
  | .inWhitespace10 => if isWhitespace c then pure d else Parse.stop (.error xmlParseError)
  | _ => pure d

/-- The sub states that a declaration must not end in. -/
def unfinished (d : EntityDecl) : Bool :=
  match d.subState with
  | .inWhitespace1 | .inSpec | .inWhitespace5 | .inReadingPublicID | .inReadingSystemID
  | .inReadingNdata | .inWhitespace9 => true
  | _ => false

end EntityDecl

def handleEntityDecl (context : Context σ) (parameter : Bool) (name value : List Byte)
    (doctypeBeginOnly : Bool) : Parse σ Unit := do
  let d ← value.foldlM EntityDecl.step EntityDecl.init
  if d.unfinished then Parse.stop (.error xmlParseError)
  else if doctypeBeginOnly then
    if d.foundInternalData ∨ d.notation' ≠ [] then Parse.stop (.error xmlParseError)
    else context (.externalSubset d.publicID d.systemID)
  else if d.foundInternalData then
    context (.internalParsedEntityDecl name d.internalData parameter)
  else if d.notation' ≠ [] then
    if parameter then Parse.stop (.error xmlNoUnparsedParameterEntities)
    else context (.unparsedEntityDecl name d.publicID d.systemID d.notation')
  else context (.externalParsedEntityDecl name d.publicID d.systemID parameter)

/-- Where `handle_attribute_decl` is. -/
inductive DeclState where
  | begin
  | name
  | firstType
  | typeEnum
  | type
  | modeFirst
  | mode
  | defFirst
  | def'
  | eatSpace
  deriving DecidableEq

/-- What `handle_attribute_decl` has read. -/
structure AttributeDecl where
  state : DeclState
  name : List Byte
  type : List Byte
  mode : List Byte
  def' : List Byte
  okayToEnd : Bool
  err : ℤ

namespace AttributeDecl

/-- `err` is `B_ERROR`. -/
def init : AttributeDecl := ⟨.name, [], [], [], [], false, -1⟩

def doneWithDecl (context : Context σ) (element : List Byte) (d : AttributeDecl) :
    Parse σ AttributeDecl := do
  context (.attributeDecl element d.name (stripWhitespace d.type) d.mode d.def')
  pure ⟨.begin, [], [], [], [], true, 0⟩

/-- A character where a name is read. -/
def readName (d : AttributeDecl) (c : Byte) : AttributeDecl :=
  if isWhitespace c then { d with state := .firstType } else { d with name := d.name ++ [c] }

/-- `MODE_FIRST_1`. -/
def readModeFirst (context : Context σ) (element : List Byte) (d : AttributeDecl) (c : Byte) :
    Parse σ AttributeDecl :=
  if c = ascii '#' then pure { d with state := .mode }
  else if c = ascii '"' then pure { d with state := .def' }
  else d.doneWithDecl context element

/-- A character of the declarations, or the `NUL` behind them. -/
def step (context : Context σ) (element : List Byte) (d : AttributeDecl) (c : Byte) :
    Parse σ AttributeDecl :=
  match d.state with
  | .begin =>
    let d := if c = 0 then d else { d with okayToEnd := false }
    if isWhitespace c then pure d else pure ({ d with state := .name }.readName c)
  | .name => pure (d.readName c)
  | .firstType =>
    if c = ascii '(' then pure { d with type := [c], state := .typeEnum }
    else pure { d with type := [c], state := .type }
  | .typeEnum =>
    if c = ascii ')' then pure { d with type := d.type ++ [c], state := .eatSpace }
    else pure { d with type := d.type ++ [c] }
  | .eatSpace =>
    if isWhitespace c then pure d
    else { d with state := .modeFirst }.readModeFirst context element c
  | .type =>
    if isWhitespace c then pure { d with state := .modeFirst }
    else pure { d with type := d.type ++ [c] }
  | .modeFirst => d.readModeFirst context element c
  | .mode =>
    if isWhitespace c ∨ c = 0 then
      if d.mode = literal ['R', 'E', 'Q', 'U', 'I', 'R', 'E', 'D'] ∨
          d.mode = literal ['I', 'M', 'P', 'L', 'I', 'E', 'D'] then d.doneWithDecl context element
      else pure { d with state := .defFirst }
    else pure { d with mode := d.mode ++ [c] }
  | .defFirst =>
    if c = ascii '"' then pure { d with state := .def' } else Parse.stop (.error xmlParseError)
  | .def' =>
    if c = ascii '"' then d.doneWithDecl context element
    else pure { d with def' := d.def' ++ [c] }

end AttributeDecl

/-- The loop of `handle_attribute_decl`. -/
def attributeDeclLoop (context : Context σ) (element : List Byte) :
    AttributeDecl → List Byte → Parse σ Unit
  | d, [] => do
    let d ← d.step context element 0
    if d.okayToEnd then pure ()
    else if d.err ≠ 0 then Parse.stop (.error d.err)
    else Parse.stop .fault -- the next character is behind the `NUL`
  | d, c :: rest => do
    let d ← d.step context element c
    attributeDeclLoop context element d rest

def handleAttributeDecl (context : Context σ) (element data : List Byte) : Parse σ Unit :=
  attributeDeclLoop context element .init (mush data)

end OpenBinder.Xml
