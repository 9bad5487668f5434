import PathQuery.Json.Fault
import PathQuery.Json.Value
import PathQuery.Number.Decimal

/-!
# Reading JSON

Every part of the reader is a function to `Outcome`: what has been read with the characters that are
left, or the fault that stopped it.

* `readNumber` reads behind the sign, and `readString`, `readArray` and `readObject` behind the
  character that opens them.
* `readValueWith` reads one value, given a reader for what stands inside a container. `readValue`
  stacks it once for each container that may still be opened, `maxDepth` times in all.
* `readDocument` reads the first value of a text and `readEnd` what follows it. `Value.ofJson` is
  one after the other.
-/

namespace PathQuery.Json

/-- What a part of the reader gives: something read and the characters left, or a fault. -/
abbrev Outcome (α : Type) := Except JsonFault (α × List Char)

/-- The blanks that may stand between the parts of a JSON text. -/
def isBlank (c : Char) : Bool := c = ' ' || c = '\n' || c = '\t' || c = '\r'

/-- The text from the first character on that is not blank. -/
def skipBlanks (cs : List Char) : List Char := cs.dropWhile isBlank

/-! ## Words -/

/-- Reads the rest of `null`, `true` or `false` once its first letter has been seen. -/
def readWord (v : Value) : List Char → List Char → Outcome Value
  | [], rest => .ok (v, rest)
  | _ :: _, [] => .error (.on .endOfValue [])
  | e :: expected, c :: rest =>
    if c = e then readWord v expected rest else .error (.on .expectedWord (c :: rest))

/-! ## Numbers -/

/-- Reads a point with the digits behind it. Without a point there is no fraction. -/
def readFraction : List Char → Outcome (Option (List Char))
  | '.' :: rest =>
    if (rest.takeWhile Char.isDigit).isEmpty then
      .error (.on (if rest.isEmpty then .endOfValue else .invalidNumber) rest)
    else .ok (some (rest.takeWhile Char.isDigit), rest.dropWhile Char.isDigit)
  | rest => .ok (none, rest)

/-- The largest exponent that is read to its end. -/
def maxExponent : Nat := 2 ^ 31 - 1

/-- Reads the digits of an exponent, and stops behind the digit that passes `maxExponent`. -/
def readExponentDigits (soFar : Nat) : List Char → Nat × List Char
  | [] => (soFar, [])
  | c :: rest =>
    if c.isDigit then
      let n := 10 * soFar + (c.toNat - '0'.toNat)
      if maxExponent < n then (n, rest) else readExponentDigits n rest
    else (soFar, c :: rest)

/-- Reads an exponent behind its `e`. An exponent that passes `maxExponent` is a fault on the spot
when the number grows with it; otherwise its further digits no longer matter. -/
def readExponent (significant : Bool) (cs : List Char) : Outcome Int :=
  let (negative, unsigned) := Numeral.splitSign cs
  match unsigned with
  | [] => .error (.on .endOfValue [])
  | c :: _ =>
    if c.isDigit then
      let (n, rest) := readExponentDigits 0 unsigned
      if maxExponent < n && significant && !negative then .error (.before .numberOutOfRange rest)
      else .ok (if negative then -(n : Int) else n, rest.dropWhile Char.isDigit)
    else .error (.on .invalidNumber unsigned)

/-- Reads an exponent, if there is one. -/
def readExponent? (significant : Bool) : List Char → Outcome (Option Int)
  | c :: rest =>
    if c = 'e' || c = 'E' then (readExponent significant rest).map fun (e, rest) => (some e, rest)
    else .ok (none, c :: rest)
  | [] => .ok (none, [])

/-- The integer that digits without fraction and exponent stand for. Zero with a minus sign and what
does not fit are left to the floats. -/
def integer? (negative : Bool) (whole : List Char) : Option Number :=
  let n : Int := Nat.ofDigitChars 10 whole 0
  let i := if negative then -n else n
  if negative && n = 0 then none
  else if h : Number.Fits i then some (.int i h) else none

/-- Reads what follows the whole part of a number and settles which number it is. A float is rounded
correctly by `Numeral.toBinary64?`, and this is an assumption: a reader that trades the last bit for
speed may be one unit in the last place off where a numeral has many digits. -/
def readNumberTail (negative : Bool) (whole cs : List Char) :
    Except JsonFault (Number × List Char) := do
  let (fraction, cs) ← readFraction cs
  let digits := fraction.getD []
  -- zero stays zero whatever its exponent is, so only other digits can pass the range
  let (exponent, cs) ← readExponent? (!(whole ++ digits).all (· = '0')) cs
  let exact := if fraction.isNone && exponent.isNone then integer? negative whole else none
  match exact with
  | some n => return (n, cs)
  | none =>
    match Numeral.toBinary64? ⟨negative, whole, digits, exponent.getD 0⟩ with
    | some x => return (.float x, cs)
    | none => throw (.before .numberOutOfRange cs)

/-- Reads a number behind its sign. A leading zero stands alone. -/
def readNumber (negative : Bool) : List Char → Outcome Number
  | [] => .error (.on .endOfValue [])
  | c :: rest =>
    if c = '0' then
      if (rest.head?.any Char.isDigit) then .error (.on .invalidNumber rest)
      else readNumberTail negative [c] rest
    else if c.isDigit then
      readNumberTail negative (c :: rest.takeWhile Char.isDigit) (rest.dropWhile Char.isDigit)
    else .error (.on .invalidNumber (c :: rest))

/-! ## Strings -/

/-- The value of a hexadecimal digit. -/
def hexDigit? (c : Char) : Option Nat :=
  if c.isDigit then some (c.toNat - '0'.toNat)
  else if 'a' ≤ c && c ≤ 'f' then some (c.toNat - 'a'.toNat + 10)
  else if 'A' ≤ c && c ≤ 'F' then some (c.toNat - 'A'.toNat + 10)
  else none

/-- Reads four hexadecimal digits. Four bytes are taken before they are looked at, so a text that is
too short has ended, whatever its characters are. -/
def readHex (cs : List Char) : Outcome Nat :=
  let digits := (cs.take 4).filterMap hexDigit?
  -- four digits are four bytes; anything else is counted in bytes
  if digits.length = 4 then .ok (digits.foldl (fun n d => 16 * n + d) 0, cs.drop 4)
  else if Text.byteCount cs < 4 then .error (.before .endOfString [])
  else .error ⟨.invalidEscape, Text.byteCount cs - 4⟩

/-- Whether the code unit starts a pair. -/
def isLeadingSurrogate (n : Nat) : Bool := 0xD800 ≤ n && n ≤ 0xDBFF

/-- Whether the code unit ends a pair. -/
def isTrailingSurrogate (n : Nat) : Bool := 0xDC00 ≤ n && n ≤ 0xDFFF

/-- Reads a given character inside a pair of surrogates. -/
def expectInPair (expected : Char) : List Char → Except JsonFault (List Char)
  | [] => .error (.before .endOfString [])
  | c :: rest => if c = expected then .ok rest else .error (.on .unexpectedEscapeEnd (c :: rest))

/-- Reads a numeric escape behind its `u`. Two surrogates make one character, and neither can stand
alone. -/
def readUnicode (cs : List Char) : Except JsonFault (Char × List Char) := do
  let (n, cs) ← readHex cs
  if isTrailingSurrogate n then throw (.before .loneSurrogate cs)
  else if isLeadingSurrogate n then
    let cs ← expectInPair '\\' cs
    let cs ← expectInPair 'u' cs
    let (m, cs) ← readHex cs
    if isTrailingSurrogate m then
      return (Char.ofNat (0x10000 + (n - 0xD800) * 0x400 + (m - 0xDC00)), cs)
    else throw (.before .loneSurrogate cs)
  else return (Char.ofNat n, cs)

/-- The character that a letter behind a backslash stands for. -/
def unescape? (c : Char) : Option Char :=
  if c = '"' || c = '\\' || c = '/' then some c
  else if c = 'b' then some '\x08'
  else if c = 'f' then some '\x0c'
  else if c = 'n' then some '\n'
  else if c = 'r' then some '\r'
  else if c = 't' then some '\t'
  else none

/-- Reads an escape behind its backslash. -/
def readEscape : List Char → Outcome Char
  | [] => .error (.before .endOfString [])
  | c :: rest =>
    match unescape? c with
    | some d => .ok (d, rest)
    | none => if c = 'u' then readUnicode rest else .error (.on .invalidEscape (c :: rest))

/-- Hexadecimal digits are taken off the front of the text. -/
theorem length_of_readHex {cs rest : List Char} {n : Nat} (h : readHex cs = .ok (n, rest)) :
    rest.length ≤ cs.length := by
  simp only [readHex] at h
  split at h
  · cases h
    simp
  · split at h <;> cases h

theorem length_of_expectInPair {expected : Char} {cs rest : List Char}
    (h : expectInPair expected cs = .ok rest) : rest.length ≤ cs.length := by
  cases cs with
  | nil => cases h
  | cons c cs =>
    rw [expectInPair] at h
    split at h
    · cases h
      simp
    · cases h

/-- A numeric escape does not lengthen the rest. -/
theorem length_of_readUnicode {cs rest : List Char} {c : Char}
    (h : readUnicode cs = .ok (c, rest)) : rest.length ≤ cs.length := by
  simp only [readUnicode, bind, Except.bind, pure, Except.pure, throw, throwThe,
    MonadExceptOf.throw] at h
  split at h
  · cases h
  · rename_i first hfirst
    have h1 : first.2.length ≤ _ := length_of_readHex hfirst
    split at h
    · cases h
    · split at h
      · split at h
        · cases h
        · -- the second half of a pair is a backslash, a `u` and four more digits
          rename_i rest2 hrest2
          have h2 := length_of_expectInPair hrest2
          split at h
          · cases h
          · rename_i rest3 hrest3
            have h3 := length_of_expectInPair hrest3
            split at h
            · cases h
            · rename_i second hsecond
              have h4 : second.2.length ≤ _ := length_of_readHex hsecond
              split at h
              · simp only [Except.ok.injEq, Prod.mk.injEq] at h
                obtain ⟨-, rfl⟩ := h
                omega
              · cases h
      · cases h
        exact h1

/-- An escape does not lengthen the rest, on which `readStringFrom` recurses. -/
theorem length_of_readEscape {cs rest : List Char} {c : Char}
    (h : readEscape cs = .ok (c, rest)) : rest.length ≤ cs.length := by
  cases cs with
  | nil => cases h
  | cons d cs =>
    rw [readEscape] at h
    split at h
    · cases h
      simp
    · split at h
      · have := length_of_readUnicode h
        simp only [List.length_cons]
        omega
      · cases h

/-- Reads a string behind its opening quote. `read` holds the characters so far, the last one
first. -/
def readStringFrom (read : List Char) : List Char → Outcome String
  | [] => .error (.before .endOfString [])
  | c :: rest =>
    if c = '"' then .ok (String.ofList read.reverse, rest)
    else if c = '\\' then
      match _h : readEscape rest with
      | .error fault => .error fault
      | .ok (d, rest') => readStringFrom (d :: read) rest'
    else if c.toNat < 0x20 then .error (.on .controlCharacter (c :: rest))
    else readStringFrom (c :: read) rest
termination_by cs => cs.length
decreasing_by
  · have := length_of_readEscape _h
    simp only [List.length_cons]
    omega
  · simp

/-- Reads a string behind its opening quote. -/
def readString (cs : List Char) : Outcome String := readStringFrom [] cs

/-! ## Containers -/

/-- Reads the elements of an array from the first one on, up to its closing bracket. There are no
more elements than characters: `bound` is the text of the array, and gives out only after it. -/
def readItems (readItem : List Char → Outcome Value) :
    (bound : List Char) → List Char → Except JsonFault (List Value × List Char)
  | [], _ => .error (.on .endOfList [])
  | _ :: bound, cs => do
    let (v, cs) ← readItem cs
    match skipBlanks cs with
    | [] => throw (.on .endOfList [])
    | ']' :: rest => return ([v], rest)
    | ',' :: rest =>
      match skipBlanks rest with
      | ']' :: rest => throw (.on .trailingComma (']' :: rest))
      | rest =>
        let (more, rest) ← readItems readItem bound rest
        return (v :: more, rest)
    | rest => throw (.on .expectedListEnd rest)

/-- Reads an array behind its opening bracket. -/
def readArray (readItem : List Char → Outcome Value) (cs : List Char) : Outcome Value :=
  match skipBlanks cs with
  | [] => .error (.on .endOfList [])
  | ']' :: rest => .ok (.arr [], rest)
  | rest => (readItems readItem rest rest).map fun (items, rest) => (.arr items, rest)

/-- Reads the colon between a key and its value. -/
def readColon (cs : List Char) : Except JsonFault (List Char) :=
  match skipBlanks cs with
  | [] => .error (.on .endOfObject [])
  | ':' :: rest => .ok rest
  | rest => .error (.on .expectedColon rest)

/-- Reads the fields of an object from behind the opening quote of the first key, up to the closing
brace. `bound` is as in `readItems`: the text of the object from that quote on. -/
def readFields (readItem : List Char → Outcome Value) :
    (bound : List Char) → List Char → Except JsonFault (List (String × Value) × List Char)
  | [], _ => .error (.on .endOfObject [])
  | _ :: bound, cs => do
    let (key, cs) ← readString cs
    let cs ← readColon cs
    let (v, cs) ← readItem cs
    match skipBlanks cs with
    | [] => throw (.on .endOfObject [])
    | '\x7d' :: rest => return ([(key, v)], rest)
    | ',' :: rest =>
      match skipBlanks rest with
      | [] => throw (.on .endOfValue [])
      | '"' :: rest =>
        let (more, rest) ← readFields readItem bound rest
        return ((key, v) :: more, rest)
      | '\x7d' :: rest => throw (.on .trailingComma ('\x7d' :: rest))
      | rest => throw (.on .keyNotString rest)
    | rest => throw (.on .expectedObjectEnd rest)

/-- Reads an object behind its opening brace. A key that comes again keeps its place and takes the
new value. -/
def readObject (readItem : List Char → Outcome Value) (cs : List Char) : Outcome Value :=
  match skipBlanks cs with
  | [] => .error (.on .endOfObject [])
  | '\x7d' :: rest => .ok (.obj [], rest)
  | '"' :: rest =>
    (readFields readItem ('"' :: rest) rest).map fun (pairs, rest) =>
      (.obj (Fields.ofPairs pairs), rest)
  | rest => .error (.on .keyNotString rest)

/-! ## Values -/

/-- Reads one value. `readItem?` reads what stands inside a container; without it no container may
be opened any more. -/
def readValueWith (readItem? : Option (List Char → Outcome Value)) (cs : List Char) :
    Outcome Value :=
  match skipBlanks cs with
  | [] => .error (.on .endOfValue [])
  | 'n' :: rest => readWord .null ['u', 'l', 'l'] rest
  | 't' :: rest => readWord (.bool true) ['r', 'u', 'e'] rest
  | 'f' :: rest => readWord (.bool false) ['a', 'l', 's', 'e'] rest
  | '"' :: rest => (readString rest).map fun (s, rest) => (.str s, rest)
  | '-' :: rest => (readNumber true rest).map fun (n, rest) => (.num n, rest)
  | '[' :: rest =>
    match readItem? with
    | some readItem => readArray readItem rest
    | none => .error (.on .tooDeep ('[' :: rest))
  | '\x7b' :: rest =>
    match readItem? with
    | some readItem => readObject readItem rest
    | none => .error (.on .tooDeep ('\x7b' :: rest))
  | c :: rest =>
    if c.isDigit then (readNumber false (c :: rest)).map fun (n, rest) => (.num n, rest)
    else .error (.on .expectedValue (c :: rest))

/-- Reads one value in which at most `depth` containers stand inside each other. -/
def readValue : (depth : Nat) → List Char → Outcome Value
  | 0 => readValueWith none
  | depth + 1 => readValueWith (some (readValue depth))

/-- How deep containers may nest. -/
def maxDepth : Nat := 127

/-- Reads the value at the start of a text. -/
def readDocument (cs : List Char) : Outcome Value := readValue maxDepth cs

/-- Only blanks may follow the value. -/
def readEnd (cs : List Char) : Except JsonFault Unit :=
  match skipBlanks cs with
  | [] => .ok ()
  | rest => .error (.on .trailingCharacters rest)

end PathQuery.Json

namespace PathQuery

/-- The value that a text is, and nothing but that value. -/
def Value.ofJson (text : String) : Except JsonError Value :=
  let read : Except JsonFault Value := do
    let (v, rest) ← Json.readDocument text.toList
    Json.readEnd rest
    return v
  read.mapError (·.locate text.toList)

end PathQuery
