import OpenBinder.Lib.Fallible
import OpenBinder.Stream.ByteStream

/-!
# What the XML parser reports

`XMLParserCore` calls a `BXMLParseContext` for what it finds. A callback that does not return
`B_OK` stops the parser, since `OnError` returns the error that it is given.

* `Callback`: the callbacks, with what they are given.
* `Parse`: what runs with a context, until there is an error or memory is used that is not there.
-/

namespace OpenBinder.Xml

open Lib

/-- A character of the source. -/
def ascii (c : Char) : Byte := BitVec.ofNat 8 c.toNat

/-- A string of the source. -/
def literal (s : List Char) : List Byte := s.map ascii

def isWhitespace (c : Byte) : Bool := c = 0x20 || c = 0x09 || c = 0x0d || c = 0x0a

/-- A call of a `BXMLParseContext`. The data of a text is what its pointer and its size say. -/
inductive Callback where
  | startTag (name : List Byte) (attributes : SValue)
  | endTag (name : List Byte)
  | textData (data : List Byte)
  | cData (data : List Byte)
  | comment (data : List Byte)
  | processingInstruction (target data : List Byte)
  | documentTypeBegin (name : List Byte)
  | externalSubset (publicID systemID : List Byte)
  | internalSubsetBegin
  | internalSubsetEnd
  | documentTypeEnd
  | elementDecl (name data : List Byte)
  | attributeDecl (element name type behavior defaultVal : List Byte)
  | internalParsedEntityDecl (name internalData : List Byte) (parameter : Bool)
  | externalParsedEntityDecl (name publicID systemID : List Byte) (parameter : Bool)
  | unparsedEntityDecl (name publicID systemID notation' : List Byte)
  | notationDecl (name value : List Byte)
  | parameterEntityRef (name : List Byte)

def xmlParseError : ℤ := (0x8000590d#32).toInt

def xmlEntityValueNoQuotes : ℤ := (0x8000590e#32).toInt

def xmlNoUnparsedParameterEntities : ℤ := (0x80005910#32).toInt

def xmlAttrNameInUse : ℤ := (0x80005919#32).toInt

/-- Why a parser stops before the end: an error, or the use of memory that is not there. -/
inductive Stop where
  | error (err : ℤ)
  | fault
  deriving DecidableEq

/-- What runs with the state of a context. -/
abbrev Parse (σ α : Type) := Fallible Stop σ α

/-- `goto ERROR_2`. -/
abbrev Parse.stop {σ α : Type} (why : Stop) : Parse σ α := Fallible.stop why

/-- A `BXMLParseContext`. The references are those that it has by default. -/
abbrev Context (σ : Type) := Callback → Parse σ Unit

/-- The character of a reference that is predefined. -/
def predefined (name : List Byte) : Option Byte :=
  if name = literal ['q', 'u', 'o', 't'] then some (ascii '"')
  else if name = literal ['a', 'm', 'p'] then some (ascii '&')
  else if name = literal ['l', 't'] then some (ascii '<')
  else if name = literal ['g', 't'] then some (ascii '>')
  else if name = literal ['a', 'p', 'o', 's'] then some (ascii '\'')
  else none

/-- The replacement of `OnGeneralParsedEntityRef`. -/
def generalReplacement (name : List Byte) : List Byte :=
  match predefined name with
  | some c => [c]
  | none => ascii '&' :: name ++ [ascii ';']

/-- The replacement of `OnParameterEntityRef`. -/
def parameterReplacement (name : List Byte) : List Byte := ascii '%' :: name ++ [ascii ';']

/-- `OnGeneralParsedEntityRef`, of a reference in the content. -/
def Context.generalParsedEntityRef {σ : Type} (context : Context σ) (name : List Byte) :
    Parse σ Unit :=
  context (.textData (generalReplacement name))

end OpenBinder.Xml
