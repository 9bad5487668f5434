import PathQuery.Number.Binary64

/-!
# Decimal texts of numbers

`Numeral` is a decimal text that is read: a sign, digits in front of and behind the point, and an
exponent. `toBinary64?` rounds it. The spelling is settled elsewhere for JSON; `Numeral.ofText?` is
the one in paths, which also allows a plus sign, leading zeros and an empty side of the point.

`Binary64.shortest` is the decimal with the fewest digits that reads back to a float, and
`FloatLayout.text` lays it out.

* `atGrid?` looks at the two neighbours of the value on the grid of a given number of digits. If any
  point of a grid reads back, one of these two does. Of two that read back the nearer one is taken,
  and `Tie` decides where they are equally near.
* `readsBack` is decided by `Binary64.ofDecimal` itself, so `readsBack_of_atGrid?` needs no argument
  about intervals.
* `FloatLayout` says when an exponent is written and how. There are three: `json`, `rendered` and
  `logged`.
-/

namespace PathQuery

/-! ## Numerals -/

/-- A decimal numeral: ± `whole`.`fraction` · 10 ^ `exponent`. -/
structure Numeral where
  negative : Bool
  whole : List Char
  fraction : List Char
  exponent : Int

namespace Numeral

/-- All digits of the numeral, read as one natural number. -/
def digits (n : Numeral) : Nat := Nat.ofDigitChars 10 (n.whole ++ n.fraction) 0

/-- The nearest float; none when the numeral lies beyond the largest one. -/
def toBinary64? (n : Numeral) : Option Binary64 :=
  Binary64.ofDecimal n.negative n.digits (n.exponent - n.fraction.length)

/-- Splits a leading sign off. A text without one is not negative. -/
def splitSign : List Char → Bool × List Char
  | '+' :: rest => (false, rest)
  | '-' :: rest => (true, rest)
  | rest => (false, rest)

/-- The digits of an exponent with its sign, up to the end of the text. -/
def exponentOfText? (cs : List Char) : Option Int :=
  let (negative, ds) := splitSign cs
  if ds.isEmpty || !ds.all Char.isDigit then none
  else
    let n : Int := Nat.ofDigitChars 10 ds 0
    some (if negative then -n else n)

/-- What follows the digits: nothing, or an exponent. -/
def tailOfText? : List Char → Option Int
  | [] => some 0
  | c :: rest => if c = 'e' || c = 'E' then exponentOfText? rest else none

/-- The numeral that the whole text spells, if it spells one. -/
def ofText? (cs : List Char) : Option Numeral :=
  let (negative, unsigned) := splitSign cs
  let whole := unsigned.takeWhile Char.isDigit
  let afterWhole := unsigned.dropWhile Char.isDigit
  let fraction := match afterWhole with
    | '.' :: rest => rest.takeWhile Char.isDigit
    | _ => []
  let rest := match afterWhole with
    | '.' :: rest => rest.dropWhile Char.isDigit
    | rest => rest
  if whole.isEmpty && fraction.isEmpty then none
  else (tailOfText? rest).map (⟨negative, whole, fraction, ·⟩)

end Numeral

/-- The float that a text spells as a numeral. A numeral beyond the largest float spells none. -/
def Binary64.ofText? (cs : List Char) : Option Binary64 :=
  (Numeral.ofText? cs).bind Numeral.toBinary64?

/-! ## Shortest decimals -/

/-- The number `digits` · 10 ^ `scale`. -/
structure Decimal where
  digits : Nat
  scale : Int
deriving DecidableEq

/-- What becomes of a value half-way between two candidates. -/
inductive Tie where
  /-- The candidate with the even last digit. -/
  | toEven
  /-- The larger candidate. -/
  | up
deriving DecidableEq

namespace Decimal

/-- The digits as text, the most significant one first. -/
def text (d : Decimal) : List Char := Nat.toDigits 10 d.digits

/-- The exponent of the leading digit: `d.ddd · 10 ^ leading`. -/
def leading (d : Decimal) : Int := d.scale + (d.text.length - 1 : Nat)

/-- Drops up to `fuel` zeros from the end of the digits. -/
def dropZeros : Nat → Decimal → Decimal
  | 0, d => d
  | fuel + 1, d =>
    if d.digits ≠ 0 ∧ d.digits % 10 = 0 then dropZeros fuel ⟨d.digits / 10, d.scale + 1⟩ else d

end Decimal

namespace Binary64

/-- The float without its sign. -/
def magnitude (x : Binary64) : Binary64 := { x with negative := false }

/-- Whether the decimal, read as a float, is the magnitude of `x`. -/
def readsBack (x : Binary64) (d : Decimal) : Bool :=
  ofDecimal false d.digits d.scale == some x.magnitude

/-- The magnitude as a decimal, without rounding: a unit is 5¹⁰⁷⁴ · 10⁻¹⁰⁷⁴. -/
def exactDecimal (x : Binary64) : Decimal := ⟨x.units * 5 ^ 1074, -1074⟩

/-- The decimal of `count` digits that reads back, if there is one. `exact` is the value itself,
of which `dropped` digits have to go. -/
def atGrid? (tie : Tie) (x : Binary64) (exact : Decimal) (dropped : Nat) : Option Decimal :=
  let step := 10 ^ dropped
  let below : Decimal := ⟨exact.digits / step, exact.scale + dropped⟩
  let above : Decimal := ⟨exact.digits / step + 1, exact.scale + dropped⟩
  let rest := exact.digits % step
  if x.readsBack below then
    if x.readsBack above then
      if 2 * rest < step then some below
      else if step < 2 * rest then some above
      else match tie with
        | .up => some above
        | .toEven => if below.digits % 2 = 0 then some below else some above
    else some below
  else if x.readsBack above then some above
  else none

/-- The fewest digits that read back to the magnitude of `x`, without zeros at the end. Seventeen
digits are always enough; the exact decimal closes the search. -/
def shortest (tie : Tie) (x : Binary64) : Decimal :=
  let exact := x.exactDecimal
  let size := exact.text.length
  let found := (List.range 17).findSome? fun n => x.atGrid? tie exact (size - (n + 1))
  found.elim (exact.dropZeros size) (Decimal.dropZeros 17)

theorem readsBack_of_atGrid? {tie : Tie} {x : Binary64} {exact d : Decimal} {dropped : Nat}
    (h : x.atGrid? tie exact dropped = some d) : x.readsBack d = true := by
  simp only [atGrid?] at h
  split at h
  · split at h
    · split at h
      · cases h; assumption
      · split at h
        · cases h; assumption
        · split at h
          · cases h; assumption
          · split at h <;> cases h <;> assumption
    · cases h; assumption
  · split at h
    · cases h; assumption
    · simp at h

end Binary64

/-! ## Layout -/

/-- An integer in decimal. -/
def integerText : Int → List Char
  | .ofNat n => Nat.toDigits 10 n
  | .negSucc n => '-' :: Nat.toDigits 10 (n + 1)

/-- How a float is laid out. An absent bound means that the notation is positional however far the
exponent goes on that side. -/
structure FloatLayout where
  /-- The least exponent of the leading digit that is written positionally. -/
  plainFrom : Option Int
  /-- The least exponent above that is no longer written positionally. -/
  plainBelow : Option Int
  /-- Whether a whole number in positional notation is marked by `.0`. -/
  marksWhole : Bool
  /-- Whether a positive exponent carries its sign. -/
  signsExponent : Bool
  tie : Tie

namespace FloatLayout

/-- JSON numbers. -/
def json : FloatLayout := ⟨some (-5), some 16, true, true, .toEven⟩

/-- Rendered values: never an exponent, and a whole number looks like an integer. -/
def rendered : FloatLayout := ⟨none, none, false, false, .up⟩

/-- Indexes in the log. -/
def logged : FloatLayout := ⟨some (-4), some 16, true, false, .up⟩

/-- Whether a number with this exponent of the leading digit is written positionally. -/
def isPlain (layout : FloatLayout) (leading : Int) : Bool :=
  layout.plainFrom.all (· ≤ leading) && layout.plainBelow.all (leading < ·)

/-- Positional notation. -/
def plainText (layout : FloatLayout) (d : Decimal) : List Char :=
  let digits := d.text
  match d.scale with
  | .ofNat zeros =>
    digits ++ List.replicate zeros '0' ++ (if layout.marksWhole then ['.', '0'] else [])
  | .negSucc n =>
    let places := n + 1
    if places < digits.length then
      digits.take (digits.length - places) ++ '.' :: digits.drop (digits.length - places)
    else '0' :: '.' :: List.replicate (places - digits.length) '0' ++ digits

/-- Scientific notation: one digit before the point, and no point without a digit after it. -/
def scientificText (layout : FloatLayout) (d : Decimal) : List Char :=
  let fraction := d.text.drop 1
  let point := if fraction.isEmpty then [] else '.' :: fraction
  let sign := if layout.signsExponent && 0 ≤ d.leading then ['+'] else []
  d.text.take 1 ++ point ++ 'e' :: (sign ++ integerText d.leading)

/-- The text of a float. -/
def text (layout : FloatLayout) (x : Binary64) : List Char :=
  let d := if x.isZero then ⟨0, 0⟩ else x.shortest layout.tie
  let body := if layout.isPlain d.leading then layout.plainText d else layout.scientificText d
  if x.negative then '-' :: body else body

end FloatLayout

end PathQuery
