import PathQuery.Proofs.Number.Exact

/-!
# What rounding depends on

* `nearest_congr`: the nearest float depends on the value, not on the fraction that spells it.
* `ofDecimal_eq_nearest`: the short cuts of `ofDecimal` for values far out of range do not change
  its result, so zeros may move from the digits to the scale (`ofDecimal_mul_pow`).
* `two_pow_le_units`: rounding down does not pass a power of two.
* `nearest_signed`: the sign has no influence on the magnitude.
-/

namespace PathQuery.Binary64

/-! ## Fractions of one value -/

/-- A common factor does not change a rounded quotient. -/
theorem roundHalfEven_mul_right (num den : Nat) {c : Nat} (hc : 0 < c) :
    roundHalfEven (num * c) (den * c) = roundHalfEven num den := by
  have hfloor : num * c / (den * c) = num / den := Nat.mul_div_mul_right num den hc
  have hrest : num * c % (den * c) = num % den * c := Nat.mul_mod_mul_right c num den
  have hbelow : 2 * (num % den * c) < den * c ↔ 2 * (num % den) < den := by
    rw [← Nat.mul_assoc]
    exact Nat.mul_lt_mul_right hc
  have habove : den * c < 2 * (num % den * c) ↔ den < 2 * (num % den) := by
    rw [← Nat.mul_assoc]
    exact Nat.mul_lt_mul_right hc
  simp only [roundHalfEven, hfloor, hrest, hbelow, habove]

theorem nearest_mul_right (negative : Bool) (num den : Nat) {c : Nat} (hc : 0 < c) :
    nearest negative (num * c) (den * c) = nearest negative num den := by
  have hscaled : num * c * unitsPerOne = num * unitsPerOne * c := Nat.mul_right_comm _ _ _
  have hden : ∀ e, den * c * 2 ^ e = den * 2 ^ e * c := fun e => Nat.mul_right_comm _ _ _
  simp only [nearest, hscaled, hden, roundHalfEven_mul_right _ _ hc, Nat.mul_div_mul_right _ _ hc]

/-- Fractions of the same value have the same nearest float. -/
theorem nearest_congr (negative : Bool) {num den num' den' : Nat} (hden : 0 < den)
    (hden' : 0 < den') (h : num * den' = num' * den) :
    nearest negative num den = nearest negative num' den' :=
  calc nearest negative num den
      = nearest negative (num * den') (den * den') := (nearest_mul_right negative _ _ hden').symm
    _ = nearest negative (num' * den) (den' * den) := by rw [h, Nat.mul_comm den den']
    _ = nearest negative num' den' := nearest_mul_right negative _ _ hden

/-! ## Values out of range -/

theorem nearest_zero (negative : Bool) {den : Nat} (hden : 0 < den) :
    nearest negative 0 den = some (zero negative) :=
  nearest_of_canonical negative (by decide) hden (by rw [Nat.zero_mul, Nat.zero_mul, Nat.zero_mul])

/-- Below half a unit there is only zero. -/
theorem nearest_of_tiny (negative : Bool) {num den : Nat} (h : 2 * (num * unitsPerOne) < den) :
    nearest negative num den = some (zero negative) := by
  have hquotient : num * unitsPerOne / den = 0 := Nat.div_eq_of_lt (by omega)
  have hrest : num * unitsPerOne % den = num * unitsPerOne := Nat.mod_eq_of_lt (by omega)
  have hround : roundHalfEven (num * unitsPerOne) (den * 2 ^ 0) = 0 := by
    rw [Nat.pow_zero, Nat.mul_one, roundHalfEven, hquotient, hrest, if_pos h]
  have hexponent : Nat.log2 0 - 52 = 0 := by rw [Nat.log2_zero]
  simp only [nearest, hquotient, hexponent, hround]
  rfl

/-- Beyond the largest exponent there are no parts of a float. -/
theorem ofParts?_eq_none (negative : Bool) (significand : Nat) {exponent : Nat}
    (h : maxExponent < exponent) : ofParts? negative significand exponent = none := by
  rw [ofParts?, dif_neg]
  rintro ⟨-, hle, -⟩
  omega

/-- From 2¹⁰²⁴ on there is no finite float left. -/
theorem nearest_of_huge (negative : Bool) {num den e : Nat} (hden : 0 < den) (he : 1024 ≤ e)
    (h : 2 ^ e * den ≤ num) : nearest negative num den = none := by
  have hquotient : 2 ^ (e + 1074) ≤ num * unitsPerOne / den := by
    rw [Nat.le_div_iff_mul_le hden]
    calc 2 ^ (e + 1074) * den = 2 ^ e * den * unitsPerOne := by
          rw [unitsPerOne, Nat.mul_right_comm, ← Nat.pow_add]
      _ ≤ num * unitsPerOne := Nat.mul_le_mul_right _ h
  have hne : num * unitsPerOne / den ≠ 0 :=
    Nat.ne_of_gt (Nat.lt_of_lt_of_le (Nat.two_pow_pos _) hquotient)
  have hlog : e + 1074 ≤ (num * unitsPerOne / den).log2 := (Nat.le_log2 hne).mpr hquotient
  have hexponent : maxExponent < (num * unitsPerOne / den).log2 - 52 := by
    rw [maxExponent]
    omega
  simp only [nearest]
  split
  · exact ofParts?_eq_none negative _ hexponent
  · exact ofParts?_eq_none negative _ (by omega)

/-! ## Decimals -/

theorem two_pow_le_ten_pow (n : Nat) : 2 ^ (3 * n) ≤ 10 ^ n := by
  rw [Nat.pow_mul]
  exact Nat.pow_le_pow_left (by decide) n

/-- A decimal reads as the float nearest to its value, also where reading takes a short cut. -/
theorem ofDecimal_eq_nearest (negative : Bool) (digits : Nat) (scale : Int) :
    ofDecimal negative digits scale =
      nearest negative (digits * 10 ^ scale.toNat) (10 ^ (-scale).toNat) := by
  cases scale with
  | ofNat n =>
    have hone : 10 ^ (-(Int.ofNat n)).toNat = 1 := by
      rw [show (-(Int.ofNat n)).toNat = 0 by simp, Nat.pow_zero]
    rw [hone, Int.ofNat_eq_natCast, Int.toNat_natCast, ← Int.ofNat_eq_natCast, ofDecimal]
    split
    · rename_i hzero
      rw [hzero, Nat.zero_mul, nearest_zero negative Nat.one_pos]
    · rename_i hne
      split
      · -- the power of ten alone is beyond the largest float
        rename_i hlarge
        have hrange : 1024 ≤ 3 * n := by omega
        refine (nearest_of_huge negative Nat.one_pos hrange ?_).symm
        calc 2 ^ (3 * n) * 1 = 2 ^ (3 * n) := Nat.mul_one _
          _ ≤ 10 ^ n := two_pow_le_ten_pow n
          _ ≤ digits * 10 ^ n := Nat.le_mul_of_pos_left _ (Nat.pos_of_ne_zero hne)
      · rfl
  | negSucc n =>
    have hscale : (-(Int.negSucc n)).toNat = n + 1 := rfl
    have hwhole : (Int.negSucc n).toNat = 0 := rfl
    rw [hscale, hwhole, Nat.pow_zero, Nat.mul_one, ofDecimal]
    split
    · -- the digits do not make up for the power of ten, and less than half a unit is left
      rename_i hsmall
      refine (nearest_of_tiny negative ?_).symm
      calc 2 * (digits * unitsPerOne)
          < 2 * (2 ^ (digits.log2 + 1) * unitsPerOne) :=
            Nat.mul_lt_mul_of_pos_left
              (Nat.mul_lt_mul_of_pos_right Nat.lt_log2_self unitsPerOne_pos) (by decide)
        _ = 2 ^ (digits.log2 + 1076) := by
            rw [unitsPerOne, ← Nat.pow_add, ← Nat.pow_succ']
        _ ≤ 2 ^ (3 * (n + 1)) := Nat.pow_le_pow_right (by decide) (by omega)
        _ ≤ 10 ^ (n + 1) := two_pow_le_ten_pow (n + 1)
    · rfl

/-- A decimal with places behind the point is a fraction by a power of ten. -/
theorem ofDecimal_neg (negative : Bool) (digits places : Nat) :
    ofDecimal negative digits (-(places : Int)) = nearest negative digits (10 ^ places) := by
  have hscale : (-(-(places : Int))).toNat = places := by omega
  have hwhole : (-(places : Int)).toNat = 0 := by omega
  rw [ofDecimal_eq_nearest, hscale, hwhole, Nat.pow_zero, Nat.mul_one]

/-- Zeros may move from the digits to the scale. -/
theorem ofDecimal_mul_pow (negative : Bool) (digits zeros : Nat) (scale : Int) :
    ofDecimal negative (digits * 10 ^ zeros) scale = ofDecimal negative digits (scale + zeros) := by
  rw [ofDecimal_eq_nearest, ofDecimal_eq_nearest]
  refine nearest_congr negative (Nat.pow_pos (by decide)) (Nat.pow_pos (by decide)) ?_
  have hscale : zeros + (scale.toNat + (-(scale + zeros)).toNat) =
      (scale + zeros).toNat + (-scale).toNat := by omega
  rw [Nat.mul_assoc, Nat.mul_assoc, Nat.mul_assoc, ← Nat.pow_add, ← Nat.pow_add, ← Nat.pow_add,
    hscale]

/-! ## Powers of two -/

/-- A rounded quotient is not below the floor of the quotient. -/
theorem div_le_roundHalfEven (num den : Nat) : num / den ≤ roundHalfEven num den := by
  simp only [roundHalfEven]
  split
  · exact Nat.le_refl _
  split
  · exact Nat.le_add_right _ _
  split
  · exact Nat.le_refl _
  · exact Nat.le_add_right _ _

/-- Rounding does not pass a power of two on its way down. -/
theorem two_pow_le_units {negative : Bool} {num den j : Nat} {x : Binary64} (hden : 0 < den)
    (h : 2 ^ j * den ≤ num * unitsPerOne) (hx : nearest negative num den = some x) :
    2 ^ j ≤ x.units := by
  obtain ⟨q, hq⟩ : ∃ q, q = num * unitsPerOne / den := ⟨_, rfl⟩
  obtain ⟨e, he⟩ : ∃ e, e = q.log2 - 52 := ⟨_, rfl⟩
  obtain ⟨s, hs⟩ : ∃ s, s = roundHalfEven (num * unitsPerOne) (den * 2 ^ e) := ⟨_, rfl⟩
  have hj : 2 ^ j ≤ q := by
    rw [hq]
    exact (Nat.le_div_iff_mul_le hden).mpr h
  have hne : q ≠ 0 := Nat.ne_of_gt (Nat.lt_of_lt_of_le (Nat.two_pow_pos j) hj)
  have hlog : j ≤ q.log2 := (Nat.le_log2 hne).mpr hj
  -- the leading bit of the quotient is still there behind the exponent
  have hleading : 2 ^ (q.log2 - e) * 2 ^ e = 2 ^ q.log2 := by
    rw [← Nat.pow_add]
    congr 1
    omega
  have hsignificand : 2 ^ (q.log2 - e) ≤ s := by
    have hfloor : 2 ^ (q.log2 - e) ≤ q / 2 ^ e := by
      rw [Nat.le_div_iff_mul_le (Nat.two_pow_pos e), hleading]
      exact Nat.log2_self_le hne
    have hround := div_le_roundHalfEven (num * unitsPerOne) (den * 2 ^ e)
    rw [← Nat.div_div_eq_div_mul, ← hq, ← hs] at hround
    exact Nat.le_trans hfloor hround
  simp only [nearest, ← hq, ← he, ← hs] at hx
  split at hx
  · obtain ⟨-, hm, hexp⟩ := ofParts?_eq_some hx
    rw [units, hm, hexp]
    calc 2 ^ j ≤ 2 ^ q.log2 := Nat.pow_le_pow_right (by decide) hlog
      _ = 2 ^ (q.log2 - e) * 2 ^ e := hleading.symm
      _ ≤ s * 2 ^ e := Nat.mul_le_mul_right _ hsignificand
  · -- the significand has become 2 ^ 53, and more than that is not needed
    obtain ⟨-, hm, hexp⟩ := ofParts?_eq_some hx
    rw [units, hm, hexp]
    calc 2 ^ j ≤ 2 ^ (52 + (e + 1)) := Nat.pow_le_pow_right (by decide) (by omega)
      _ = 2 ^ 52 * 2 ^ (e + 1) := Nat.pow_add 2 52 (e + 1)
      _ ≤ s / 2 * 2 ^ (e + 1) := Nat.mul_le_mul_right _ (by omega)

/-- A natural number is read as the float nearest to it. -/
theorem ofDecimal_zero_scale (negative : Bool) (n : Nat) :
    ofDecimal negative n 0 = nearest negative n 1 := by
  rw [ofDecimal_eq_nearest, Int.neg_zero, Int.toNat_zero, Nat.pow_zero, Nat.mul_one]

/-- A natural number is read as a float whose whole part does not pass a power of two either. -/
theorem two_pow_le_wholePart {negative : Bool} {n j : Nat} {x : Binary64} (h : 2 ^ j ≤ n)
    (hx : ofDecimal negative n 0 = some x) : 2 ^ j ≤ x.wholePart := by
  rw [ofDecimal_zero_scale] at hx
  have hunits : 2 ^ (j + 1074) ≤ x.units := by
    refine two_pow_le_units Nat.one_pos ?_ hx
    calc 2 ^ (j + 1074) * 1 = 2 ^ j * unitsPerOne := by
          rw [Nat.mul_one, unitsPerOne, ← Nat.pow_add]
      _ ≤ n * unitsPerOne := Nat.mul_le_mul_right _ h
  rw [wholePart, Nat.le_div_iff_mul_le unitsPerOne_pos, unitsPerOne, ← Nat.pow_add]
  exact hunits

/-! ## Signs -/

/-- The float with another sign. -/
def signed (negative : Bool) (x : Binary64) : Binary64 := { x with negative }

/-- The sign does not decide whether the parts are in canonical form. -/
theorem ofParts?_signed {negative : Bool} {significand exponent : Nat} {x : Binary64}
    (h : ofParts? false significand exponent = some x) :
    ofParts? negative significand exponent = some (x.signed negative) := by
  rw [ofParts?] at h ⊢
  split at h
  · rename_i hcanonical
    cases h
    rw [dif_pos hcanonical]
    rfl
  · cases h

/-- Rounding goes by the magnitude, whatever the sign. -/
theorem nearest_signed {num den : Nat} {x : Binary64} (negative : Bool)
    (h : nearest false num den = some x) : nearest negative num den = some (x.signed negative) := by
  simp only [nearest] at h ⊢
  split at h
  · rename_i hfull
    rw [if_pos hfull]
    exact ofParts?_signed h
  · rename_i hcarry
    rw [if_neg hcarry]
    exact ofParts?_signed h

/-- A decimal is read by its magnitude, whatever the sign. -/
theorem ofDecimal_signed {digits : Nat} {scale : Int} {x : Binary64} (negative : Bool)
    (h : ofDecimal false digits scale = some x) :
    ofDecimal negative digits scale = some (x.signed negative) := by
  rw [ofDecimal_eq_nearest] at h ⊢
  exact nearest_signed negative h

/-! ## Natural numbers with a sign -/

/-- Of the negative ones only zero is a natural number. -/
theorem toNat?_signed_natural (negative : Bool) (n : Nat) (h : n < 2 ^ 53) :
    ((natural n h).signed negative).toNat? = (if negative then -(n : Int) else n).toNat? := by
  have hunits : ((natural n h).signed negative).units = n * unitsPerOne := units_natural n h
  have hwhole : ((natural n h).signed negative).isWhole = true := isWhole_natural n h
  have hpart : ((natural n h).signed negative).wholePart = n := wholePart_natural n h
  rw [toNat?, hwhole, hpart, Bool.true_and]
  cases negative with
  | false => rfl
  | true =>
    cases n with
    | zero => rfl
    | succ n =>
      have hzero : ((natural (n + 1) h).signed true).isZero = false := by
        rw [← Bool.not_eq_true, isZero_iff_units, hunits]
        exact Nat.ne_of_gt (Nat.mul_pos n.succ_pos unitsPerOne_pos)
      rw [hzero]
      rfl

/-- No natural number from 2⁵³ on is read as one below. -/
theorem le_of_toNat? {negative : Bool} {n k : Nat} {x : Binary64} (h : 2 ^ 53 ≤ n)
    (hx : ofDecimal negative n 0 = some x) (hk : x.toNat? = some k) : 2 ^ 53 ≤ k := by
  have hpart : 2 ^ 53 ≤ x.wholePart := two_pow_le_wholePart h hx
  rw [toNat?] at hk
  split at hk
  · cases hk
    exact hpart
  · cases hk

end PathQuery.Binary64
