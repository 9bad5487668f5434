import PathQuery.Number.Decimal
import PathQuery.Proofs.Number.Rounding

/-!
# The shortest decimal reads back

* `readsBack_shortest`: each candidate of the search is tried by reading it, and the exact decimal,
  which closes the search, needs no rounding (`readsBack_exactDecimal`).
* `leading_lt` and `lt_leading` bound the leading exponent of a decimal that reads back, by the
  range of the floats.
-/

namespace PathQuery

namespace Binary64

variable {x : Binary64} {d : Decimal}

theorem readsBack_iff :
    x.readsBack d = true ↔ ofDecimal false d.digits d.scale = some x.magnitude := by
  rw [readsBack, beq_iff_eq]

/-! ## The search -/

/-- Dropping zeros at the end keeps what a decimal reads as. -/
theorem readsBack_dropZeros (fuel : Nat) (h : x.readsBack d = true) :
    x.readsBack (d.dropZeros fuel) = true := by
  induction fuel generalizing d with
  | zero => exact h
  | succ fuel ih =>
    rw [Decimal.dropZeros]
    split
    · rename_i hzero
      apply ih
      have hdigits : d.digits / 10 * 10 ^ 1 = d.digits := by omega
      have hshift := ofDecimal_mul_pow false (d.digits / 10) 1 d.scale
      rw [hdigits] at hshift
      rw [readsBack_iff] at h ⊢
      exact hshift.symm.trans h
    · exact h

theorem five_pow_mul_two_pow (n : Nat) : 5 ^ n * 2 ^ n = 10 ^ n := by
  rw [← Nat.mul_pow]

/-- As many decimal places as there are binary ones spell the value without rounding. -/
theorem nearest_units (x : Binary64) {places : Nat} (h : unitsPerOne = 2 ^ places) :
    nearest false (x.units * 5 ^ places) (10 ^ places) = some x.magnitude := by
  apply nearest_of_canonical false x.canonical (Nat.pow_pos (by decide))
  rw [h, Nat.mul_assoc, five_pow_mul_two_pow, units]

theorem readsBack_exactDecimal (x : Binary64) : x.readsBack x.exactDecimal = true := by
  rw [readsBack_iff, exactDecimal]
  exact (ofDecimal_neg false _ 1074).trans (x.nearest_units rfl)

/-- The search reads back if its candidates and its last resort do. -/
theorem readsBack_elim {exact : Decimal} {found : Option Decimal} {size : Nat}
    (hexact : x.readsBack exact = true) (hfound : ∀ d ∈ found, x.readsBack d = true) :
    x.readsBack (found.elim (exact.dropZeros size) (Decimal.dropZeros 17)) = true := by
  cases found with
  | some d => exact readsBack_dropZeros 17 (hfound d rfl)
  | none => exact readsBack_dropZeros size hexact

/-- The shortest decimal of a float reads back. -/
theorem readsBack_shortest (tie : Tie) (x : Binary64) : x.readsBack (x.shortest tie) = true := by
  rw [shortest]
  refine readsBack_elim x.readsBack_exactDecimal ?_
  intro d hfound
  obtain ⟨n, -, hgrid⟩ := List.exists_of_findSome?_eq_some hfound
  exact readsBack_of_atGrid? hgrid

/-! ## Zero -/

theorem ofDecimal_zero (negative : Bool) (scale : Int) :
    ofDecimal negative 0 scale = some (zero negative) := by
  rw [ofDecimal_eq_nearest, Nat.zero_mul, nearest_zero negative (Nat.pow_pos (by decide))]

/-- There is one zero of each sign. -/
theorem eq_zero_of_isZero (h : x.isZero = true) : x = zero x.negative := by
  obtain ⟨negative, significand, exponent, hcanonical⟩ := x
  have hsignificand : significand = 0 := by simpa [isZero] using h
  have hexponent : exponent = 0 := by
    obtain ⟨-, -, hexponent | hfull⟩ := hcanonical
    · exact hexponent
    · omega
  subst hsignificand hexponent
  rfl

theorem isZero_of_magnitude {negative : Bool} (h : x.magnitude = zero negative) :
    x.isZero = true := by
  have hmagnitude : x.magnitude.isZero = true := by rw [h, isZero_zero]
  exact hmagnitude

/-- A float other than zero has digits other than zero. -/
theorem digits_ne_zero (h : x.readsBack d = true) (hx : x.isZero = false) : d.digits ≠ 0 := by
  intro hzero
  rw [readsBack_iff, hzero, ofDecimal_zero, Option.some.injEq] at h
  rw [isZero_of_magnitude h.symm] at hx
  cases hx

/-! ## The range -/

/-- A number is at least the power of ten of its leading digit. -/
theorem pow_pred_length_le {n : Nat} (h : n ≠ 0) : 10 ^ ((Nat.toDigits 10 n).length - 1) ≤ n := by
  by_cases hone : (Nat.toDigits 10 n).length - 1 = 0
  · rw [hone, Nat.pow_zero]
    omega
  · have hiff := Nat.length_toDigits_le_iff (b := 10) (n := n) (by decide) (Nat.pos_of_ne_zero hone)
    omega

/-- A number is below the power of ten of as many zeros as it has digits. -/
theorem lt_pow_length (n : Nat) : n < 10 ^ (Nat.toDigits 10 n).length :=
  (Nat.length_toDigits_le_iff (by decide) Nat.length_toDigits_pos).mp (Nat.le_refl _)

/-- A decimal beyond the range of the floats would read as none of them. -/
theorem leading_lt (h : x.readsBack d = true) (hne : d.digits ≠ 0) {bound : Nat}
    (hbound : 342 ≤ bound) : d.leading < bound := by
  rw [readsBack_iff, ofDecimal_eq_nearest] at h
  have hpow := pow_pred_length_le hne
  have hden : 0 < 10 ^ (-d.scale).toNat := Nat.pow_pos (by decide)
  rw [Decimal.leading, Decimal.text]
  generalize (Nat.toDigits 10 d.digits).length = l at hpow
  refine Int.not_le.mp fun hlarge => ?_
  have hhuge : 2 ^ (3 * bound) * 10 ^ (-d.scale).toNat ≤ d.digits * 10 ^ d.scale.toNat :=
    calc 2 ^ (3 * bound) * 10 ^ (-d.scale).toNat
        ≤ 10 ^ bound * 10 ^ (-d.scale).toNat := Nat.mul_le_mul_right _ (two_pow_le_ten_pow bound)
      _ = 10 ^ (bound + (-d.scale).toNat) := (Nat.pow_add ..).symm
      _ ≤ 10 ^ (l - 1 + d.scale.toNat) := Nat.pow_le_pow_right (by decide) (by omega)
      _ = 10 ^ (l - 1) * 10 ^ d.scale.toNat := Nat.pow_add ..
      _ ≤ d.digits * 10 ^ d.scale.toNat := Nat.mul_le_mul_right _ hpow
  have hrange : 1024 ≤ 3 * bound := by omega
  rw [nearest_of_huge false hden hrange hhuge] at h
  cases h

theorem two_mul_unitsPerOne_le : 2 * unitsPerOne ≤ 10 ^ 399 := by decide +kernel

/-- A decimal below the range of the floats would read as zero. -/
theorem lt_leading (h : x.readsBack d = true) (hx : x.isZero = false) : -400 < d.leading := by
  rw [readsBack_iff, ofDecimal_eq_nearest] at h
  have hpow := lt_pow_length d.digits
  have hlength : 0 < (Nat.toDigits 10 d.digits).length := Nat.length_toDigits_pos
  rw [Decimal.leading, Decimal.text]
  generalize (Nat.toDigits 10 d.digits).length = l at hpow hlength
  -- a smaller decimal is less than half a unit, whatever its digits are
  refine Int.not_le.mp fun hsmall => ?_
  have hfactor : 0 < 2 * unitsPerOne * 10 ^ d.scale.toNat := by
    have hunits := unitsPerOne_pos
    exact Nat.mul_pos (by omega) (Nat.pow_pos (by decide))
  have htiny : 2 * (d.digits * 10 ^ d.scale.toNat * unitsPerOne) < 10 ^ (-d.scale).toNat :=
    calc 2 * (d.digits * 10 ^ d.scale.toNat * unitsPerOne)
        = d.digits * (2 * unitsPerOne * 10 ^ d.scale.toNat) := by
          simp only [Nat.mul_assoc, Nat.mul_comm, Nat.mul_left_comm]
      _ < 10 ^ l * (2 * unitsPerOne * 10 ^ d.scale.toNat) :=
          Nat.mul_lt_mul_of_pos_right hpow hfactor
      _ ≤ 10 ^ l * (10 ^ 399 * 10 ^ d.scale.toNat) :=
          Nat.mul_le_mul_left _ (Nat.mul_le_mul_right _ two_mul_unitsPerOne_le)
      _ = 10 ^ (l + (399 + d.scale.toNat)) := by rw [Nat.pow_add, Nat.pow_add]
      _ ≤ 10 ^ (-d.scale).toNat := Nat.pow_le_pow_right (by decide) (by omega)
  rw [nearest_of_tiny false htiny, Option.some.injEq] at h
  rw [isZero_of_magnitude h.symm] at hx
  cases hx

end Binary64

end PathQuery
