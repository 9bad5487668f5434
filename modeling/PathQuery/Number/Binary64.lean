/-!
# Finite binary floating-point numbers

`Binary64` is a finite 64-bit binary float, kept as sign, significand and exponent in canonical
form. Equality is therefore equality of the parts, and facts about rounding are facts about `Nat`.

* `units` is the magnitude in units of the smallest positive float, 2⁻¹⁰⁷⁴.
* `nearest` rounds a quotient half to even, and gives none beyond the largest float.
* `ofDecimal` rounds a decimal through `nearest`. Decimals that are too small or too large for their
  digits to matter are settled without computing the power of ten.
-/

namespace PathQuery

/-- A power of a natural number or an integer is the one of its own type, also where a module knows
about powers in a monoid. -/
@[default_instance 20000]
instance (priority := 2000) instPowOfNatPow {α : Type} [NatPow α] : Pow α Nat := instPowNat

/-- The largest exponent of a finite float, counted from the smallest positive one. -/
def Binary64.maxExponent : Nat := 2045

/-- The form in which each value is kept: either the significand uses all 53 bits, or the exponent
is the least one. -/
def Binary64.Canonical (significand exponent : Nat) : Prop :=
  significand < 2 ^ 53 ∧ exponent ≤ Binary64.maxExponent ∧ (exponent = 0 ∨ 2 ^ 52 ≤ significand)

instance (significand exponent : Nat) : Decidable (Binary64.Canonical significand exponent) :=
  inferInstanceAs (Decidable (_ ∧ _ ∧ _))

/-- The float ± `significand` · 2 ^ (`exponent` - 1074). Zero has a sign. -/
structure Binary64 where
  negative : Bool
  significand : Nat
  exponent : Nat
  canonical : Binary64.Canonical significand exponent
deriving DecidableEq

namespace Binary64

/-! ## Reading a value -/

/-- The magnitude, in units of the smallest positive float. -/
def units (x : Binary64) : Nat := x.significand * 2 ^ x.exponent

/-- How many units make one. -/
def unitsPerOne : Nat := 2 ^ 1074

/-- Whether the value is a whole number. -/
def isWhole (x : Binary64) : Bool := x.units % unitsPerOne == 0

/-- The integer part of the magnitude. -/
def wholePart (x : Binary64) : Nat := x.units / unitsPerOne

/-- Whether the float is one of the two zeros. -/
def isZero (x : Binary64) : Bool := x.significand == 0

/-- The natural number that the float is, if it is one. Both zeros are 0. -/
def toNat? (x : Binary64) : Option Nat :=
  if x.isWhole && (!x.negative || x.isZero) then some x.wholePart else none

/-! ## Rounding to a float -/

/-- The quotient rounded to the nearest natural number, a half going to the even neighbour. -/
def roundHalfEven (num den : Nat) : Nat :=
  let floor := num / den
  let rest := num % den
  if 2 * rest < den then floor
  else if den < 2 * rest then floor + 1
  else if floor % 2 = 0 then floor
  else floor + 1

/-- The float with the given parts, unless they are not in canonical form. -/
def ofParts? (negative : Bool) (significand exponent : Nat) : Option Binary64 :=
  if h : Canonical significand exponent then some ⟨negative, significand, exponent, h⟩ else none

/-- The float nearest to ± `num / den`, a half going to the even significand; none when that lies
beyond the largest float. The exponent is the least one that leaves 53 bits, and a significand that
rounds up to 2⁵³ moves to the next exponent. -/
def nearest (negative : Bool) (num den : Nat) : Option Binary64 :=
  let scaled := num * unitsPerOne
  let exponent := (scaled / den).log2 - 52
  let significand := roundHalfEven scaled (den * 2 ^ exponent)
  if significand < 2 ^ 53 then ofParts? negative significand exponent
  -- rounding up can reach 2 ^ 53 but not pass it, so halving is exact
  else ofParts? negative (significand / 2) (exponent + 1)

/-- Zero with the given sign. -/
def zero (negative : Bool) : Binary64 := ⟨negative, 0, 0, by decide⟩

/-- The float nearest to ± `digits` · 10 ^ `scale`; none when that lies beyond the largest float.
With a scale above 400 any other than zero does; far enough below the smallest float everything is
zero, since 10ⁿ is above 8ⁿ. -/
def ofDecimal (negative : Bool) (digits : Nat) (scale : Int) : Option Binary64 :=
  match scale with
  | .ofNat n =>
    if digits = 0 then some (zero negative)
    else if 400 < n then none
    else nearest negative (digits * 10 ^ n) 1
  | .negSucc n =>
    -- then the value is below 2 ^ (-1080), far under half a unit
    if digits.log2 + 1080 < 3 * (n + 1) then some (zero negative)
    else nearest negative digits (10 ^ (n + 1))

/-! ## Small facts -/

/-- A zero is a float of no units. -/
theorem isZero_iff_units {x : Binary64} : x.isZero = true ↔ x.units = 0 := by
  have hpow : 2 ^ x.exponent ≠ 0 := Nat.pos_iff_ne_zero.mp (Nat.two_pow_pos x.exponent)
  rw [isZero, units, beq_iff_eq, Nat.mul_eq_zero]
  exact (or_iff_left hpow).symm

@[simp] theorem isZero_zero (negative : Bool) : (zero negative).isZero = true := rfl

theorem ofParts?_eq_some {negative : Bool} {significand exponent : Nat} {x : Binary64}
    (h : ofParts? negative significand exponent = some x) :
    x.negative = negative ∧ x.significand = significand ∧ x.exponent = exponent := by
  rw [ofParts?] at h
  split at h
  · cases h; exact ⟨rfl, rfl, rfl⟩
  · simp at h

end Binary64

end PathQuery
