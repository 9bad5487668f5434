import PathQuery.Json.Value
import PathQuery.Number.Decimal

/-!
# Writing JSON

`Value.write` writes a value in either `JsonStyle`. The styles differ in `lineBreak` and `colon`
only: the compact one has no blanks, and the pretty one puts every element and field on a line of
its own, indented by two blanks for each container. `Json.escape` escapes quotes, backslashes and
control characters.
-/

namespace PathQuery

/-- The two forms of JSON text. -/
inductive JsonStyle where
  | compact
  | pretty
deriving DecidableEq

namespace JsonStyle

/-- What separates the elements of a container that is `depth` containers deep. -/
def lineBreak (depth : Nat) : JsonStyle → List Char
  | compact => []
  | pretty => '\n' :: List.replicate (2 * depth) ' '

/-- What separates a key from its value. -/
def colon : JsonStyle → List Char
  | compact => [':']
  | pretty => [':', ' ']

end JsonStyle

/-- A character as it stands between the quotes of a JSON string. -/
def Json.escape (c : Char) : List Char :=
  if c = '"' then ['\\', '"']
  else if c = '\\' then ['\\', '\\']
  else if c = '\x08' then ['\\', 'b']
  else if c = '\x0c' then ['\\', 'f']
  else if c = '\n' then ['\\', 'n']
  else if c = '\r' then ['\\', 'r']
  else if c = '\t' then ['\\', 't']
  else if c.toNat < 0x20 then
    ['\\', 'u', '0', '0', Nat.digitChar (c.toNat / 16), Nat.digitChar (c.toNat % 16)]
  else [c]

/-- The text as a JSON string. -/
def Json.quote (s : String) : List Char :=
  '"' :: (s.toList.flatMap Json.escape ++ ['"'])

/-- Integers in decimal, floats with the fewest digits that read back. -/
def Number.write : Number → List Char
  | .int i _ => integerText i
  | .float x => FloatLayout.json.text x

namespace Value

mutual
/-- The text of a value that stands `depth` containers deep. -/
def write (style : JsonStyle) (depth : Nat) : Value → List Char
  | null => ['n', 'u', 'l', 'l']
  | bool true => ['t', 'r', 'u', 'e']
  | bool false => ['f', 'a', 'l', 's', 'e']
  | num n => n.write
  | str s => Json.quote s
  | arr [] => ['[', ']']
  | arr (v :: rest) =>
    '[' :: (style.lineBreak (depth + 1) ++ (write style (depth + 1) v ++
      (writeItems style (depth + 1) rest ++ (style.lineBreak depth ++ [']']))))
  | obj [] => ['\x7b', '\x7d']
  | obj ((k, v) :: rest) =>
    '\x7b' :: (style.lineBreak (depth + 1) ++ (Json.quote k ++ (style.colon ++
      (write style (depth + 1) v ++
        (writeFields style (depth + 1) rest ++ (style.lineBreak depth ++ ['\x7d']))))))

/-- The elements after the first one, each behind its comma. -/
def writeItems (style : JsonStyle) (depth : Nat) : List Value → List Char
  | [] => []
  | v :: rest =>
    ',' :: (style.lineBreak depth ++ (write style depth v ++ writeItems style depth rest))

/-- The fields after the first one, each behind its comma. -/
def writeFields (style : JsonStyle) (depth : Nat) : List (String × Value) → List Char
  | [] => []
  | (k, v) :: rest =>
    ',' :: (style.lineBreak depth ++ (Json.quote k ++ (style.colon ++
      (write style depth v ++ writeFields style depth rest))))
end

/-- The value as a JSON text. -/
def toJson (style : JsonStyle) (v : Value) : String := String.ofList (v.write style 0)

end Value

end PathQuery
