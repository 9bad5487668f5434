import PathQuery.Evaluation.Walk
import PathQuery.Json.Reader

/-!
# Mappings and projections

`Mapping` is one path or a table of named paths, and `Value.project` evaluates it on a document.

* `Mapping.ofValue` accepts a string and an object of strings; tables do not nest.
* `Mapping.ofJson` reads the whole text before it checks the shape. `Mapping.decode` checks the
  shape of the first value before it reads what follows.
* `Value.project` never fails. A table gives an object built by `Fields.ofPairs`, so a repeated key
  keeps its first place and takes its last result.
* `evaluateJson` and `projectJson` start from texts. The former gives null for a text that is not
  JSON, the latter an error, and reads the document first.
-/

namespace PathQuery

/-- What keeps a query from being answered. -/
inductive QueryError where
  | json (e : JsonError)
  /-- The JSON value is not a mapping. -/
  | shape
  /-- The input is not text. -/
  | notUtf8
deriving DecidableEq

namespace QueryError

/-- The message without the word on where the error comes from, for JSON errors. -/
def detail : QueryError → String
  | json e => e.message
  | shape => "invalid mapping: expected a path string or an object of path strings"
  | notUtf8 => "io error: stream did not contain valid UTF-8"

/-- The message of an error, with its origin named in front of the detail of a JSON error. -/
def message : QueryError → String
  | json e => "invalid json: " ++ e.message
  | e => e.detail

end QueryError

/-- A mapping: the text of one path, or rows of a key and the text of a path. -/
inductive Mapping where
  | path (text : String)
  | table (rows : List (String × String))
deriving DecidableEq

namespace Mapping

/-- The fields as rows of a table, if all their values are strings. -/
def rows? : List (String × Value) → Option (List (String × String))
  | [] => some []
  | (key, .str text) :: rest => (rows? rest).map ((key, text) :: ·)
  | _ :: _ => none

/-- The mapping that a JSON value is: a string is a path, an object of strings a table. -/
def ofValue? : Value → Option Mapping
  | .str text => some (path text)
  | .obj fields => (rows? fields).map table
  | _ => none

/-- The mapping that a JSON value is, or what is wrong with it. -/
def ofValue (v : Value) : Except QueryError Mapping := (ofValue? v).elim (.error .shape) .ok

/-- The mapping that a JSON text is. -/
def ofJson (text : String) : Except QueryError Mapping :=
  ((Value.ofJson text).mapError QueryError.json).bind ofValue

/-- The mapping at the start of a text, if nothing else follows. -/
def decode (text : String) : Except QueryError Mapping := do
  let located (fault : JsonFault) : QueryError := .json (fault.locate text.toList)
  let (v, rest) ← (Json.readDocument text.toList).mapError located
  let mapping ← ofValue v
  (Json.readEnd rest).mapError located
  return mapping

end Mapping

/-- What the mapping takes out of the document. -/
def Value.project (document : Value) : Mapping → Traced Value
  | .path text => document.follow text
  | .table rows => do
    let results ← Traced.collect (fun row => (row.1, ·) <$> document.follow row.2) rows
    return .obj (Fields.ofPairs results)

/-- What a path text selects from a JSON text. -/
def evaluateJson (document path : String) : Value :=
  match Value.ofJson document with
  | .ok v => evaluate v path
  | .error _ => .null

/-- What a mapping takes out of a document, both given as JSON texts. -/
def projectJson (document mapping : String) : Except QueryError Value := do
  let v ← (Value.ofJson document).mapError QueryError.json
  let m ← Mapping.ofJson mapping
  return (v.project m).value

end PathQuery
