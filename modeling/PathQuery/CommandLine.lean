import PathQuery.Json.Writer
import PathQuery.Projection

/-!
# The command line

`respond` is a run of `JSON MAPPING` with its options: `--table` takes the mapping for a table,
`--compact` asks for the compact style, and `-v` for a log, which changes no output.

* `readArguments` goes from left to right. The first argument that settles the matter does, whether
  it asks for the version or the help, or does not fit.
* `Query.result` reads the document before the mapping. The document is the first operand, or
  standard input where that is a dash (`Query.readsInput`).
* `Request.respond` gives the exit code and both streams.
-/

namespace PathQuery.CommandLine

/-- A query as it was asked for. -/
structure Query where
  document : String
  mapping : String
  table : Bool
  compact : Bool
deriving DecidableEq

/-- What the arguments ask for. -/
inductive Request where
  | query (q : Query)
  | version
  | help
  | misuse
deriving DecidableEq

/-- The arguments that have been read so far. -/
structure Pending where
  operands : List String := []
  table : Bool := false
  compact : Bool := false

/-- Exactly a document and a mapping are needed. -/
def Pending.finish (p : Pending) : Request :=
  match p.operands with
  | [document, mapping] => .query ⟨document, mapping, p.table, p.compact⟩
  | _ => .misuse

/-- Options of one letter may share a dash. None of them settles the matter where all ask for the
log. -/
def shortOptions : List Char → Option Request
  | [] => none
  | 'v' :: rest => shortOptions rest
  | 'V' :: _ => some .version
  | 'h' :: _ => some .help
  | _ :: _ => some .misuse

/-- Whether the argument is an option. A single dash is not. -/
def isOption (arg : String) : Bool := arg.toList.head? == some '-' && arg != "-"

/-- Reads the arguments. Behind a double dash there are no more options. -/
def readArguments (p : Pending) : List String → Request
  | [] => p.finish
  | arg :: rest =>
    -- from here on even a dash starts an operand
    if arg = "--" then { p with operands := p.operands ++ rest }.finish
    else if isOption arg then
      if arg = "--table" then
        if p.table then .misuse else readArguments { p with table := true } rest
      else if arg = "--compact" then
        if p.compact then .misuse else readArguments { p with compact := true } rest
      else if arg = "--verbose" then readArguments p rest
      else if arg = "--version" then .version
      else if arg = "--help" then .help
      else
        match shortOptions (arg.toList.drop 1) with
        | none => readArguments p rest
        | some request => request
    else if p.operands.length < 2 then
      readArguments { p with operands := p.operands ++ [arg] } rest
    else .misuse

/-- What the arguments of a run ask for. -/
def Request.ofArguments (args : List String) : Request := readArguments {} args

/-- What a run leaves behind: its exit code and what it writes to either stream. -/
structure Response where
  code : UInt8
  output : String := ""
  errors : String := ""
deriving DecidableEq

/-- The text of the help, and of a refusal. -/
def usage : String := "Usage: jplt [OPTIONS] <JSON> <MAPPING>\n"

/-- The text of the version. -/
def version : String := "json-path-like-transform 0.1.0\n"

namespace Query

/-- Whether the document comes from standard input. -/
def readsInput (q : Query) : Bool := q.document == "-"

/-- The style in which the result is written. -/
def style (q : Query) : JsonStyle := if q.compact then .compact else .pretty

/-- The text of the document. `input` is standard input; none where that is not UTF-8. -/
def documentText (q : Query) (input : Option String) : Except QueryError String :=
  if q.readsInput then input.elim (.error .notUtf8) .ok else .ok q.document

/-- The result of the query as text. The document is read before the mapping. -/
def result (q : Query) (input : Option String) : Except QueryError String := do
  let text ← q.documentText input
  let document ← (Value.ofJson text).mapError QueryError.json
  let mapping ← if q.table then Mapping.ofJson q.mapping else .ok (.path q.mapping)
  return (document.project mapping).value.toJson q.style

end Query

/-- The response to a request, given standard input. -/
def Request.respond (input : Option String) : Request → Response
  | query q =>
    match q.result input with
    | .ok text => { code := 0, output := text ++ "\n" }
    | .error e => { code := 1, errors := e.message ++ "\n" }
  | version => { code := 0, output := CommandLine.version }
  | help => { code := 0, output := usage }
  | misuse => { code := 2, errors := usage }

/-- A whole run. -/
def respond (args : List String) (input : Option String) : Response :=
  (Request.ofArguments args).respond input

end PathQuery.CommandLine
