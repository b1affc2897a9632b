import OpenBinder.Xml.ParserCore

/-!
# `ParseXML`

A tree of `BCreator`s takes what the parser reports. The context has a stack of them, the one of
the innermost element on top, and collects text and comments until something else comes.

* `creatorContext`: the `BCreatorParseContext` of a tree of creators.
* `parseXML`: a data source is parsed.
-/

namespace OpenBinder.Xml

open Lib

/-- A tree of `BCreator`s `κ`, with what they have made. A callback returns a status, and
`OnStartTag` may return another creator. -/
structure Creators (κ ω : Type) where
  onStartTag : κ → List Byte → SValue → ω → ℤ × Option κ × ω
  onEndTag : κ → List Byte → ω → ℤ × ω
  onText : κ → List Byte → ω → ℤ × ω
  onComment : κ → List Byte → ω → ℤ × ω
  onProcessingInstruction : κ → List Byte → List Byte → ω → ℤ × ω
  done : κ → ω → ℤ × ω

/-- `m_textType`. -/
inductive TextType where
  | text
  | comment
  | blahPadding
  deriving DecidableEq

/-- A `BCreatorParseContext`, the top of the stack first, and what its creators have made. -/
structure CreatorState (κ ω : Type) where
  creators : List κ
  textData : List Byte
  textType : TextType
  made : ω

namespace CreatorState

variable {κ ω : Type}

/-- `m_creators.Top()`. -/
def top : Parse (CreatorState κ ω) κ := fun s =>
  match s.creators with
  | [] => (.error .fault, s)
  | k :: _ => (.ok k, s)

/-- `m_creators.Pop()`. -/
def pop : Parse (CreatorState κ ω) Unit := fun s =>
  match s.creators with
  | [] => (.error .fault, s)
  | _ :: rest => (.ok (), { s with creators := rest })

/-- `m_creators.Push()`. -/
def push (k : κ) : Parse (CreatorState κ ω) Unit := fun s =>
  (.ok (), { s with creators := k :: s.creators })

/-- A creator is called, and its status is returned if it is not `B_OK`. -/
def call (f : ω → ℤ × ω) : Parse (CreatorState κ ω) Unit := fun s =>
  let (err, made) := f s.made
  (if err = 0 then .ok () else .error (.error err), { s with made := made })

/-- A creator is called, and nothing looks at its status. -/
def callUnchecked (f : ω → ℤ × ω) : Parse (CreatorState κ ω) Unit := fun s =>
  (.ok (), { s with made := (f s.made).2 })

/-- `OnStartTag` of a creator. -/
def callStart (f : ω → ℤ × Option κ × ω) : Parse (CreatorState κ ω) (Option κ) := fun s =>
  let (err, creator, made) := f s.made
  (if err = 0 then .ok creator else .error (.error err), { s with made := made })

variable (creators : Creators κ ω)

def doText (k : κ) : Parse (CreatorState κ ω) Unit := fun s =>
  if s.textData = [] then (.ok (), s)
  else
    let (result, s') :=
      match s.textType with
      | .text => call (creators.onText k s.textData) s
      | .comment => call (creators.onComment k s.textData) s
      | .blahPadding => (.error (.error (-1)), s)
    (result, { s' with textData := [] })

def onStartTag (name : List Byte) (attributes : SValue) : Parse (CreatorState κ ω) Unit := do
  let k ← top
  doText creators k
  let newCreator ← callStart (creators.onStartTag k name attributes)
  push (newCreator.getD k)

def onEndTag (name : List Byte) : Parse (CreatorState κ ω) Unit := do
  let k ← top
  doText creators k
  callUnchecked (creators.done k)
  pop
  let k ← top
  call (creators.onEndTag k name)

/-- `OnTextData`, `OnCData` and `OnComment`. What is behind a `NUL` is not appended. -/
def onData (type : TextType) (data : List Byte) : Parse (CreatorState κ ω) Unit := fun s =>
  let flush : Parse (CreatorState κ ω) Unit :=
    if s.textType ≠ type then do
      let k ← top
      doText creators k
    else pure ()
  match flush s with
  | (.ok (), s) =>
    (.ok (), { s with textData := s.textData ++ data.takeWhile (· ≠ 0), textType := type })
  | (.error why, s) => (.error why, s)

end CreatorState

/-- **The `BCreatorParseContext` of a tree of creators.** -/
def creatorContext {κ ω : Type} (creators : Creators κ ω) : Context (CreatorState κ ω)
  | .startTag name attributes => CreatorState.onStartTag creators name attributes
  | .endTag name => CreatorState.onEndTag creators name
  | .textData data | .cData data => CreatorState.onData creators .text data
  | .comment data => CreatorState.onData creators .comment data
  | .processingInstruction target data => do
    let k ← CreatorState.top
    CreatorState.call (creators.onProcessingInstruction k target data)
  | _ => pure ()

/-- What `GetNextBuffer` returns, one call after the other: a buffer, the last buffer, or an
error, with which it may say that there are no more buffers. -/
inductive Source where
  | buffer (data : List Byte) (rest : Source)
  | done (data : List Byte)
  | failed (err : ℤ) (nonzero : err ≠ 0) (done : Bool)

/-- The loop of `_do_the_parsing_yo_`, and whether the source has reported its last buffer. -/
def parseLoop {σ : Type} (context : Context σ) :
    Source → XMLParserCore → σ → Except Stop Unit × Bool × σ
  | .buffer data rest, m, s =>
    match m.processInputBuffer context data s with
    | (.ok m, s) => parseLoop context rest m s
    | (.error why, s) => (.error why, false, s)
  | .done data, m, s =>
    match m.processInputBuffer context data s with
    | (.ok _, s) => (.ok (), true, s)
    | (.error why, s) => (.error why, true, s)
  | .failed err _ done, _, s => (.error (.error err), done, s)

/-- `OnDocumentEnd` and `OnDocumentFail`, which a `BCreatorParseContext` does not override. -/
def processEnd (_isComplete : Bool) : ℤ := 0

/-- The flags that `ParseXML` adds. -/
def realFlags (flags : BitVec 32) : BitVec 32 := flags ||| 2#32 ||| 4#32

section

variable {κ ω : Type} (creators : Creators κ ω) (creator : κ) (source : Source) (flags : BitVec 32)

/-- What `ParseXML` has come to before `ProcessEnd`. -/
def parsed (made : ω) : Except Stop Unit × Bool × CreatorState κ ω :=
  parseLoop (creatorContext creators) source (.init false (realFlags flags))
    ⟨[creator], [], .blahPadding, made⟩

/-- **`ParseXML`**: what it returns, and what the creators have made. There is no result if memory
is used that is not there. -/
def parseXML (made : ω) : Option (ℤ × ω) :=
  match parsed creators creator source flags made with
  | (.error .fault, _, _) => none
  | (_, done, s) => some (processEnd done, s.made)

end

end OpenBinder.Xml
