import PathQuery.CommandLine

/-!
# The program

`main` reads standard input where the request asks for it, and writes the response of
`Request.respond` to the two streams.
-/

open PathQuery CommandLine

/-- Standard input as text; none where it is not UTF-8. -/
def readInput : IO (Option String) := do
  let stdin ← IO.getStdin
  let bytes ← stdin.readBinToEnd
  return String.fromUTF8? bytes

/-- Runs a request and exits with its code. -/
def main (args : List String) : IO UInt32 := do
  let request := Request.ofArguments args
  let input ← match request with
    | .query q => if q.readsInput then readInput else pure none
    | _ => pure none
  let response := request.respond input
  IO.print response.output
  IO.eprint response.errors
  return response.code.toUInt32
