import OpenBinder.Xml.Declarations

/-!
# `XMLParserCore`

The parser is given one buffer after the other. It goes through the bytes of a buffer one by one,
in a state that it keeps from one buffer to the next. Names and attributes are collected in strings,
while the text of a longer section stays in the buffer until it is reported, at the latest at the
end of the buffer.

* `XMLParserCore.handle`: what is done with a character in a state.
* `XMLParserCore.bufferEnd`: what is done at the end of a buffer.
* `XMLParserCore.processInputBuffer`: a buffer.
-/

namespace OpenBinder.Xml

open Lib Fallible

def utf8CharLen (ch : Byte) : ℕ :=
  ((0xe5000000#32 >>> ((ch >>> 3) &&& 0x1e#8).toNat) &&& 3#32).toNat + 1

inductive ParserState where
  | inUnknown
  | inUnknownMarkup
  | inUnknownMarkupGtE
  | inProcessingInstructionTarget
  | inProcessingInstruction
  | inElementStartName
  | inElementStartTag
  | inElementEndTag
  | inCdata
  | inComment
  | inDoctype
  | inElementDecl
  | inAttlistDecl
  | inEntityDecl
  | inNotationDecl
  | inGeRef
  | inPeRef
  deriving DecidableEq

/-- The parser. `nearingEnd` is `m_upcomming`, `longStringData` is where in the buffer the section
that it is in starts, and `parameterDecl` is `m_declType`. -/
structure XMLParserCore where
  dtdOnly : Bool
  flags : BitVec 32
  remainingChars : List Byte
  parseText : List Byte
  characterSize : ℕ
  state : ParserState
  nearingEnd : Bool
  subState : SubState
  currentToken : List Byte
  currentName : List Byte
  savedName : List Byte
  currentSubName : List Byte
  entityValue : List Byte
  delimiter : Byte
  stringMap : SValue
  longStringData : Option ℕ
  carryoverLongData : Byte × Byte × Byte
  someChars : Byte × Byte × Byte
  inDTD : Bool
  parameterDecl : Bool

namespace XMLParserCore

/-- `initializeState`. -/
def init (dtdOnly : Bool) (flags : BitVec 32) : XMLParserCore where
  dtdOnly := dtdOnly
  flags := flags
  remainingChars := []
  parseText := []
  characterSize := 0
  state := .inUnknown
  nearingEnd := false
  subState := .inUnknown
  currentToken := []
  currentName := []
  savedName := []
  currentSubName := []
  entityValue := []
  delimiter := 0
  stringMap := .undefined
  longStringData := none
  carryoverLongData := (0, 0, 0)
  someChars := (0, 0, 0)
  inDTD := false
  parameterDecl := false

/-- `B_XML_COALESCE_WHITESPACE`. -/
def coalesceWhitespace (flags : BitVec 32) : Bool := flags &&& 1#32 ≠ 0

/-- `B_XML_HANDLE_ATTRIBUTE_ENTITIES`. -/
def handleAttributeEntities (flags : BitVec 32) : Bool := flags &&& 2#32 ≠ 0

/-- `B_XML_DONT_EXPAND_CHARREFS`. -/
def dontExpandCharrefs (flags : BitVec 32) : Bool := flags &&& 0x20#32 ≠ 0

variable {σ : Type} (context : Context σ)

/-- A value that is joined to what is there for a key. -/
def joinItem (map key : SValue) (value : List Byte) : Parse σ SValue :=
  match SValue.joinItem map key (stringValue value) Flags.none with
  | some map => pure map
  | none => Parse.stop .fault

/-- `AsString`, of a string. -/
def asString (value : SValue) : List Byte := (value.bytes.getD []).takeWhile (· ≠ 0)

/-- What is made of the value of an attribute. -/
def attributeValue (flags : BitVec 32) (value : List Byte) : List Byte :=
  let v := if handleAttributeEntities flags then expandEntities value (ascii '&') else value
  if coalesceWhitespace flags then mush v else v

/-- The loop of `handle_element_start`, from the item at `i` on. -/
def attributesLoop (flags : BitVec 32) : ℕ → ℕ → SValue → Parse σ SValue
  | 0, _, attributes => pure attributes
  | n + 1, i, attributes =>
    match attributes.items[i]? with
    | none => pure attributes
    | some (key, value) => do
      let attributes ← joinItem attributes key (attributeValue flags (asString value))
      attributesLoop flags n (i + 1) attributes

/-- What `handle_element_start` makes of the attributes. -/
def expandAttributes (flags : BitVec 32) (attributes : SValue) : Parse σ SValue :=
  if handleAttributeEntities flags ∨ coalesceWhitespace flags then
    attributesLoop flags attributes.items.length 0 attributes
  else pure attributes

def handleElementStart (name : List Byte) (attributes : SValue) (flags : BitVec 32) :
    Parse σ Unit := do
  let attributes ← expandAttributes flags attributes
  context (.startTag name attributes)

/-- A byte of the buffer is written. It has one byte more than there is text, for a `NUL`. -/
def write (m : XMLParserCore) (i : ℤ) (b : Byte) : Parse σ XMLParserCore :=
  if 0 ≤ i ∧ i ≤ m.parseText.length then
    pure { m with parseText := m.parseText.set i.toNat b }
  else Parse.stop .fault

/-- A byte of the buffer is read. -/
def read (m : XMLParserCore) (i : ℤ) : Parse σ Byte :=
  if 0 ≤ i ∧ i ≤ m.parseText.length then pure (m.parseText.getD i.toNat 0) else Parse.stop .fault

/-- The section that starts at `m_longStringData`, to a position. -/
def longData (m : XMLParserCore) (long pos : ℕ) : List Byte := (m.parseText.take pos).drop long

/-- The text before a position is reported. -/
def reportText (m : XMLParserCore) (pos : ℕ) : Parse σ XMLParserCore :=
  match m.longStringData with
  | some long => do
    context (.textData (m.longData long pos))
    pure { m with longStringData := none }
  | none => pure m

/-- `PARSER_IN_UNKNOWN`. -/
def handleUnknown (m : XMLParserCore) (pos : ℕ) (c : Byte) : Parse σ XMLParserCore :=
  if c = ascii '<' then do
    let m ← m.reportText context pos
    pure { m with state := .inUnknownMarkup }
  else if !m.dtdOnly ∧ m.inDTD ∧ c = ascii ']' then do
    context .internalSubsetEnd
    pure m
  else if m.inDTD ∧ c = ascii '>' then do
    context .documentTypeEnd
    pure { m with inDTD := false }
  else if m.inDTD ∧ c = ascii '%' then pure { m with currentName := [], state := .inPeRef }
  else if (m.dtdOnly ∨ !m.inDTD) ∧ c = ascii '&' then do
    let m ← m.reportText context pos
    pure { m with currentName := [], state := .inGeRef }
  else if (m.dtdOnly ∨ !m.inDTD) ∧ m.longStringData = none then
    pure { m with longStringData := some pos }
  else pure m

/-- `PARSER_IN_UNKNOWN_MARKUP`. -/
def handleUnknownMarkup (m : XMLParserCore) (c : Byte) : XMLParserCore :=
  if c = ascii '/' then { m with state := .inElementEndTag, currentName := [] }
  else if c = ascii '!' then { m with state := .inUnknownMarkupGtE, currentToken := [] }
  else if c = ascii '?' then { m with state := .inProcessingInstructionTarget, currentToken := [] }
  else { m with state := .inElementStartName, currentName := [c], stringMap := .undefined }

/-- `PARSER_IN_UNKNOWN_MARKUP_GT_E`. -/
def handleUnknownMarkupGtE (m : XMLParserCore) (pos : ℕ) (c : Byte) : Parse σ XMLParserCore :=
  if m.currentToken = literal ['-', '-'] then
    pure { m with longStringData := some pos, state := .inComment, someChars := (0, 0, 0) }
  else if m.currentToken = literal ['[', 'C', 'D', 'A', 'T', 'A', '['] then
    pure { m with longStringData := some pos, state := .inCdata, someChars := (0, 0, 0) }
  else if m.currentToken = literal ['D', 'O', 'C', 'T', 'Y', 'P', 'E'] then
    if isWhitespace c then pure { m with state := .inDoctype, subState := .inWhitespace1 }
    else Parse.stop (.error xmlParseError)
  else if m.currentToken = literal ['E', 'L', 'E', 'M', 'E', 'N', 'T'] then
    pure { m with state := .inElementDecl, subState := .inWhitespace1 }
  else if m.currentToken = literal ['A', 'T', 'T', 'L', 'I', 'S', 'T'] then
    pure { m with state := .inAttlistDecl, subState := .inWhitespace1 }
  else if m.currentToken = literal ['E', 'N', 'T', 'I', 'T', 'Y'] then
    pure { m with state := .inEntityDecl, subState := .inWhitespace1 }
  else if m.currentToken = literal ['N', 'O', 'T', 'A', 'T', 'I', 'O', 'N'] then
    pure { m with state := .inNotationDecl, subState := .inWhitespace1 }
  else if 9 < m.currentToken.length then Parse.stop (.error xmlParseError)
  else pure { m with currentToken := m.currentToken ++ [c] }

/-- `PARSER_IN_PROCESSING_INSTRUCTION_TARGET`. -/
def handleInstructionTarget (m : XMLParserCore) (c : Byte) : XMLParserCore :=
  if isWhitespace c then
    { m with currentName := m.currentToken, currentToken := [], state := .inProcessingInstruction }
  else { m with currentToken := m.currentToken ++ [c] }

/-- `PARSER_IN_PROCESSING_INSTRUCTION`. -/
def handleInstruction (m : XMLParserCore) (c : Byte) : Parse σ XMLParserCore :=
  if isWhitespace c ∧ m.currentToken = [] then pure m
  else if c = ascii '?' then pure { m with nearingEnd := true }
  else if c = ascii '>' ∧ m.nearingEnd then do
    context (.processingInstruction m.currentName (expandCharRefs m.currentToken))
    pure { m with currentName := [], currentToken := [], state := .inUnknown, nearingEnd := false }
  else pure { m with nearingEnd := false, currentToken := m.currentToken ++ [c] }

/-- `PARSER_IN_ELEMENT_START_NAME`. -/
def handleStartName (m : XMLParserCore) (c : Byte) : Parse σ XMLParserCore :=
  if c = ascii '/' then pure { m with state := .inElementStartTag, nearingEnd := true }
  else if c = ascii '>' then do
    handleElementStart context m.currentName m.stringMap m.flags
    pure { m with state := .inUnknown }
  else if isWhitespace c then
    pure { m with currentToken := [], state := .inElementStartTag, subState := .inWhitespace }
  else pure { m with currentName := m.currentName ++ [c] }

/-- The attributes of `PARSER_IN_ELEMENT_START_TAG`. -/
def handleAttribute (m : XMLParserCore) (c : Byte) : Parse σ XMLParserCore :=
  match m.subState with
  | .inWhitespace =>
    pure { m with
      subState := if isWhitespace c then .inWhitespace else .inName
      currentToken := [c] }
  | .inName =>
    if isWhitespace c then pure { m with subState := .inWhitespace1 }
    else if c = ascii '=' then pure { m with subState := .readyForValue }
    else pure { m with currentToken := m.currentToken ++ [c] }
  | .inWhitespace1 =>
    if isWhitespace c then pure m
    else if c = ascii '=' then pure { m with subState := .readyForValue }
    else Parse.stop (.error xmlParseError)
  | .readyForValue =>
    if c = ascii '\'' ∨ c = ascii '"' then
      pure { m with
        delimiter := c
        currentSubName := m.currentToken
        currentToken := []
        subState := .inValue }
    else if isWhitespace c then pure { m with delimiter := 0 }
    else Parse.stop (.error xmlParseError)
  | .inValue =>
    if c = m.delimiter then
      if (m.stringMap.valueFor (stringValue m.currentSubName)).isDefined then
        Parse.stop (.error xmlAttrNameInUse)
      else do
        let map ← joinItem m.stringMap (stringValue m.currentSubName) m.currentToken
        pure { m with
          stringMap := map
          currentSubName := []
          currentToken := []
          subState := .inWhitespace }
    else pure { m with currentToken := m.currentToken ++ [c] }
  | _ => pure m

/-- The end of a start tag, which is that of the element if a `/` is before it. -/
def finishStartTag (m : XMLParserCore) : Parse σ XMLParserCore := do
  handleElementStart context m.currentName m.stringMap m.flags
  when m.nearingEnd (context (.endTag m.currentName))
  pure { m with
    savedName := m.currentName
    currentName := []
    currentToken := []
    state := .inUnknown
    nearingEnd := false }

/-- `PARSER_IN_ELEMENT_START_TAG`. -/
def handleStartTag (m : XMLParserCore) (c : Byte) : Parse σ XMLParserCore :=
  if m.subState ≠ .inValue ∧ c = ascii '/' then pure { m with nearingEnd := true }
  else if c = ascii '>' then m.finishStartTag context
  else if m.nearingEnd then
    handleAttribute { m with nearingEnd := false, currentToken := m.currentToken ++ [ascii '/'] } c
  else handleAttribute m c

/-- `PARSER_IN_ELEMENT_END_TAG`. -/
def handleEndTag (m : XMLParserCore) (c : Byte) : Parse σ XMLParserCore :=
  if c = ascii '>' then do
    context (.endTag m.currentName)
    pure { m with currentName := [], state := .inUnknown, nearingEnd := false }
  else if isWhitespace c then pure { m with nearingEnd := true }
  else if m.nearingEnd then pure m
  else pure { m with currentName := m.currentName ++ [c] }

/-- The three bytes that were behind the end of the last buffer are reported. -/
def reportCarryover (callback : List Byte → Callback) (m : XMLParserCore) : Parse σ XMLParserCore :=
  let (c₀, c₁, c₂) := m.carryoverLongData
  if c₀ ≠ 0 then do
    context (callback [c₀, c₁, c₂])
    pure { m with carryoverLongData := (0, c₁, c₂) }
  else pure m

/-- The end of a comment or of a `CDATA` section. The mark is to be stripped off, and the size is
that of the section with it. -/
def finishSection (callback : List Byte → Callback) (m : XMLParserCore) (pos : ℕ) :
    Parse σ XMLParserCore := do
  let m ← m.write ((pos : ℤ) - 2) 0
  match m.longStringData with
  | some long => do
    context (callback (m.longData long pos))
    pure { m with state := .inUnknown, longStringData := none }
  | none => Parse.stop .fault

/-- `PARSER_IN_COMMENT` and `PARSER_IN_CDATA`, which differ in the callback and in the character
that comes twice before the end. -/
def handleSection (callback : List Byte → Callback) (mark : Byte) (m : XMLParserCore) (pos : ℕ)
    (c : Byte) : Parse σ XMLParserCore := do
  let m ← reportCarryover context callback { m with
    someChars := (m.someChars.2.1, m.someChars.2.2, c) }
  if m.someChars = (mark, mark, ascii '>') then finishSection context callback m pos else pure m

/-- The end of a document type that is not followed by an external subset, or that is. -/
def handleDoctypeEnd (m : XMLParserCore) (c : Byte) (externalID : Bool) : Parse σ XMLParserCore := do
  context (.documentTypeBegin m.currentName)
  when externalID (handleEntityDecl context false [] m.currentToken true)
  if c = ascii '[' then
    context .internalSubsetBegin
    pure { m with state := .inUnknown, subState := .inUnknown, inDTD := true, longStringData := none }
  else
    context .documentTypeEnd
    pure { m with state := .inUnknown, inDTD := false }

/-- `PARSER_IN_DOCTYPE`. -/
def handleDoctype (m : XMLParserCore) (c : Byte) : Parse σ XMLParserCore :=
  match m.subState with
  | .inWhitespace1 =>
    if isWhitespace c then pure m
    else pure { m with currentName := [c], subState := .inDoctypeName }
  | .inDoctypeName =>
    if c = ascii '[' ∨ c = ascii '>' then m.handleDoctypeEnd context c false
    else if isWhitespace c then pure { m with subState := .inWhitespace2 }
    else pure { m with currentName := m.currentName ++ [c] }
  | .inWhitespace2 =>
    if c = ascii '[' ∨ c = ascii '>' then m.handleDoctypeEnd context c false
    else if isWhitespace c then pure m
    else pure { m with subState := .inExternalID, currentToken := [c] }
  | .inExternalID =>
    if c = ascii '[' ∨ c = ascii '>' then m.handleDoctypeEnd context c true
    else pure { m with currentToken := m.currentToken ++ [c] }
  | _ => pure m

/-- `PARSER_SUB_IN_ENTITY_REF`, of the declarations. -/
def handleEntityRef (m : XMLParserCore) (c : Byte) : XMLParserCore :=
  if c = ascii ';' then
    let value := parameterReplacement m.currentSubName
    { m with entityValue := value, currentToken := m.currentToken ++ value, subState := .inSpec }
  else { m with currentSubName := m.currentSubName ++ [c] }

/-- `PARSER_SUB_IN_SPEC`, of the declarations that have parameter entities. -/
def handleSpec (finished : XMLParserCore → Parse σ Unit) (m : XMLParserCore) (c : Byte) :
    Parse σ XMLParserCore :=
  if c = ascii '%' then pure { m with subState := .inEntityRef, currentSubName := [] }
  else if c = ascii '>' then do
    finished m
    pure { m with state := .inUnknown, subState := .inUnknown }
  else pure { m with currentToken := m.currentToken ++ [c] }

/-- `PARSER_IN_ELEMENT_DECL` and `PARSER_IN_ATTLIST_DECL`. -/
def handleNamedDecl (finished : XMLParserCore → Parse σ Unit) (m : XMLParserCore) (c : Byte) :
    Parse σ XMLParserCore :=
  match m.subState with
  | .inWhitespace1 =>
    if isWhitespace c then pure m else pure { m with currentName := [c], subState := .inName }
  | .inName =>
    if isWhitespace c then pure { m with subState := .inWhitespace2 }
    else pure { m with currentName := m.currentName ++ [c] }
  | .inWhitespace2 =>
    if c = ascii '%' then
      pure { m with currentToken := [], subState := .inEntityRef, currentSubName := [] }
    else if isWhitespace c then pure m
    else pure { m with currentToken := [c], subState := .inSpec }
  | .inSpec => handleSpec finished m c
  | .inEntityRef => pure (m.handleEntityRef c)
  | _ => pure m

/-- `PARSER_IN_ENTITY_DECL`. -/
def handleEntity (m : XMLParserCore) (c : Byte) : Parse σ XMLParserCore :=
  match m.subState with
  | .inWhitespace1 =>
    if isWhitespace c then pure m
    else if c = ascii '%' then pure { m with parameterDecl := true, subState := .inWhitespace2 }
    else pure { m with subState := .inName, currentName := [c], parameterDecl := false }
  | .inWhitespace2 =>
    if isWhitespace c then pure m else pure { m with subState := .inName, currentName := [c] }
  | .inName =>
    if isWhitespace c then pure { m with subState := .inWhitespace3 }
    else pure { m with currentName := m.currentName ++ [c] }
  | .inWhitespace3 =>
    if isWhitespace c then pure m else pure { m with currentToken := [c], subState := .inSpec }
  | .inSpec =>
    handleSpec (fun m => handleEntityDecl context m.parameterDecl m.currentName m.currentToken false)
      m c
  | .inEntityRef => pure (m.handleEntityRef c)
  | _ => pure m

/-- `PARSER_IN_NOTATION_DECL`. -/
def handleNotation (m : XMLParserCore) (c : Byte) : Parse σ XMLParserCore :=
  match m.subState with
  | .inWhitespace1 =>
    if isWhitespace c then pure m else pure { m with currentName := [c], subState := .inName }
  | .inName =>
    if isWhitespace c then pure { m with subState := .inWhitespace2 }
    else pure { m with currentName := m.currentName ++ [c] }
  | .inWhitespace2 =>
    if isWhitespace c then pure m else pure { m with currentToken := [c], subState := .inSpec }
  | .inSpec =>
    if c = ascii '>' then do
      context (.notationDecl m.currentName m.currentToken)
      pure { m with state := .inUnknown, subState := .inUnknown }
    else pure { m with currentToken := m.currentToken ++ [c] }
  | _ => pure m

/-- What a reference stands for is reported. -/
def reportGeRef (m : XMLParserCore) : Parse σ Unit :=
  if m.currentName.head? = some (ascii '#') then
    let entityVal :=
      if dontExpandCharrefs m.flags then ascii '&' :: m.currentName ++ [ascii ';']
      else expandCharRef m.currentName
    when (entityVal ≠ []) (context (.textData entityVal))
  else context.generalParsedEntityRef m.currentName

/-- `PARSER_IN_GE_REF`. -/
def handleGeRef (m : XMLParserCore) (c : Byte) : Parse σ XMLParserCore :=
  if c = ascii ';' then do
    m.reportGeRef context
    pure { m with state := .inUnknown }
  else pure { m with currentName := m.currentName ++ [c] }

/-- `PARSER_IN_PE_REF`. -/
def handlePeRef (m : XMLParserCore) (c : Byte) : Parse σ XMLParserCore :=
  if c = ascii ';' then do
    context (.parameterEntityRef m.currentName)
    pure { m with state := .inUnknown }
  else pure { m with currentName := m.currentName ++ [c] }

/-- What is done with a character. -/
def handle (m : XMLParserCore) (pos : ℕ) (c : Byte) : Parse σ XMLParserCore :=
  match m.state with
  | .inUnknown => m.handleUnknown context pos c
  | .inUnknownMarkup => pure (m.handleUnknownMarkup c)
  | .inUnknownMarkupGtE => m.handleUnknownMarkupGtE pos c
  | .inProcessingInstructionTarget => pure (m.handleInstructionTarget c)
  | .inProcessingInstruction => m.handleInstruction context c
  | .inElementStartName => m.handleStartName context c
  | .inElementStartTag => m.handleStartTag context c
  | .inElementEndTag => m.handleEndTag context c
  | .inComment => handleSection context .comment (ascii '-') m pos c
  | .inCdata => handleSection context .cData (ascii ']') m pos c
  | .inDoctype => m.handleDoctype context c
  | .inElementDecl =>
    handleNamedDecl (fun m => context (.elementDecl m.currentName m.currentToken)) m c
  | .inAttlistDecl =>
    handleNamedDecl (fun m => handleAttributeDecl context m.currentName m.currentToken) m c
  | .inEntityDecl => m.handleEntity context c
  | .inNotationDecl => m.handleNotation context c
  | .inGeRef => m.handleGeRef context c
  | .inPeRef => m.handlePeRef context c

/-- A byte. A character that is not in the buffer as a whole is left out. -/
def handleByte (m : XMLParserCore) (pos : ℕ) (c : Byte) : Parse σ XMLParserCore :=
  let m : XMLParserCore := { m with characterSize := utf8CharLen c }
  if m.parseText.length < pos + m.characterSize then pure m else m.handle context pos c

/-- The loop over the bytes of a buffer, and where it stops. -/
def loop : XMLParserCore → ℕ → List Byte → Parse σ (XMLParserCore × ℕ)
  | m, pos, [] => pure (m, pos)
  | m, pos, c :: rest =>
    if c = 0 then pure (m, pos)
    else do
      let m ← m.handleByte context pos c
      loop m (pos + 1) rest

/-- What is left of a buffer for the next one. -/
def keepRemaining (m : XMLParserCore) (pos : ℕ) : Parse σ XMLParserCore :=
  if pos = m.parseText.length then pure { m with remainingChars := [] }
  else do
    -- `strdup`
    let _ ← m.read ((pos : ℤ) - m.characterSize)
    let remaining := (m.parseText.drop (pos - m.characterSize)).takeWhile (· ≠ 0)
    pure { m with remainingChars := remaining }

/-- The last three bytes are kept for the next buffer, since the end of the section may be there. -/
def carryOver (m : XMLParserCore) : Parse σ XMLParserCore :=
  if m.state ≠ .inUnknown then do
    let n : ℤ := m.parseText.length
    let c₀ ← m.read (n - 3)
    let c₁ ← m.read (n - 2)
    let c₂ ← m.read (n - 1)
    let m ← m.write (n - 3) 0
    pure { m with carryoverLongData := (c₀, c₁, c₂) }
  else pure m

/-- How a section of a state is reported. -/
def sectionCallback : ParserState → List Byte → Callback
  | .inCdata => .cData
  | .inComment => .comment
  | _ => .textData

/-- The section that goes on in the next buffer is reported. -/
def reportLong (m : XMLParserCore) (pos long : ℕ) : Parse σ XMLParserCore := do
  let m ← m.carryOver
  context (sectionCallback m.state (m.longData long pos))
  pure m

/-- The end of a buffer. -/
def bufferEnd (m : XMLParserCore) (pos : ℕ) : Parse σ XMLParserCore := do
  let m ← m.keepRemaining pos
  match m.longStringData with
  | some long => m.reportLong context pos long
  | none => pure m

/-- The parser with a buffer, behind what is left of the last one. -/
def withBuffer (m : XMLParserCore) (dataBuffer : List Byte) : XMLParserCore :=
  { m with
    parseText := m.remainingChars ++ dataBuffer
    remainingChars := []
    longStringData := m.longStringData.map fun _ => 0
    characterSize := 0 }

/-- **`ProcessInputBuffer`.** -/
def processInputBuffer (m : XMLParserCore) (dataBuffer : List Byte) : Parse σ XMLParserCore :=
  if dataBuffer.length + m.remainingChars.length ≤ 3 then
    pure { m with remainingChars := m.remainingChars ++ dataBuffer }
  else do
    let m := m.withBuffer dataBuffer
    let (m, pos) ← loop context m 0 m.parseText
    m.bufferEnd context pos

end XMLParserCore

end OpenBinder.Xml
