import PathQuery.Text

/-!
# Faults of a JSON text

`JsonFault` is the cause at which the reader stopped, with the number of bytes beyond it.
`JsonFault.locate` works out line and column from the whole text, which gives a `JsonError`. Lines
count from one, columns count bytes.
-/

namespace PathQuery

/-- What is wrong with a JSON text. -/
inductive JsonCause where
  | endOfValue
  | endOfList
  | endOfObject
  | endOfString
  | expectedValue
  | expectedWord
  | expectedColon
  | expectedListEnd
  | expectedObjectEnd
  | keyNotString
  | trailingComma
  | trailingCharacters
  | invalidNumber
  | numberOutOfRange
  | controlCharacter
  | invalidEscape
  | loneSurrogate
  | unexpectedEscapeEnd
  | tooDeep
deriving DecidableEq

/-- The wording of a cause. -/
def JsonCause.message : JsonCause → String
  | endOfValue => "EOF while parsing a value"
  | endOfList => "EOF while parsing a list"
  | endOfObject => "EOF while parsing an object"
  | endOfString => "EOF while parsing a string"
  | expectedValue => "expected value"
  | expectedWord => "expected ident"
  | expectedColon => "expected `:`"
  | expectedListEnd => "expected `,` or `]`"
  | expectedObjectEnd => "expected `,` or `\x7d`"
  | keyNotString => "key must be a string"
  | trailingComma => "trailing comma"
  | trailingCharacters => "trailing characters"
  | invalidNumber => "invalid number"
  | numberOutOfRange => "number out of range"
  | controlCharacter => "control character (\\u0000-\\u001F) found while parsing a string"
  | invalidEscape => "invalid escape"
  | loneSurrogate => "lone leading surrogate in hex escape"
  | unexpectedEscapeEnd => "unexpected end of hex escape"
  | tooDeep => "recursion limit exceeded"

/-- A cause and where it lies: `left` bytes of the text come after the place. -/
structure JsonFault where
  cause : JsonCause
  left : Nat
deriving DecidableEq

namespace JsonFault

/-- A fault between what has been read and `rest`. -/
def before (cause : JsonCause) (rest : List Char) : JsonFault := ⟨cause, Text.byteCount rest⟩

/-- A fault on the first byte of `rest`. -/
def on (cause : JsonCause) (rest : List Char) : JsonFault := ⟨cause, Text.byteCount rest - 1⟩

end JsonFault

/-- A fault with its line and column. -/
structure JsonError where
  cause : JsonCause
  line : Nat
  column : Nat
deriving DecidableEq

/-- The message of an error, with its place. -/
def JsonError.message (e : JsonError) : String :=
  e.cause.message ++ " at line " ++ toString e.line ++ " column " ++ toString e.column

/-- The line and the column after `bytes` more bytes of the text, from the given ones on. -/
def lineColumn (line column : Nat) : Nat → List Char → Nat × Nat
  | 0, _ => (line, column)
  | _ + 1, [] => (line, column)
  | n + 1, c :: cs =>
    if c = '\n' then lineColumn (line + 1) 0 n cs
    else if c.utf8Size ≤ n + 1 then
      lineColumn line (column + c.utf8Size) (n + 1 - c.utf8Size) cs
    -- the place lies inside this character
    else (line, column + (n + 1))

/-- The fault as seen from the whole text. -/
def JsonFault.locate (text : List Char) (fault : JsonFault) : JsonError :=
  let place := lineColumn 1 0 (Text.byteCount text - fault.left) text
  ⟨fault.cause, place.1, place.2⟩

end PathQuery
