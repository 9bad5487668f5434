import PathQuery.Number.Decimal

/-!
# Numbers that need no rounding

A value in canonical form is its own nearest float (`nearest_of_canonical`). `natural` is the float
that a natural number below 2⁵³ is, and the decimal digits of the number read back as this float
(`Binary64.ofText?_toDigits`).
-/

namespace PathQuery.Binary64

/-! ## Rounding what is exact -/

/-- A multiple of the denominator is divided without rounding. -/
theorem roundHalfEven_mul (n : Nat) {den : Nat} (h : 0 < den) :
    roundHalfEven (n * den) den = n := by
  have hrest : n * den % den = 0 := Nat.mul_mod_left n den
  rw [roundHalfEven, hrest, if_pos (by omega), Nat.mul_div_cancel n h]

/-- The exponent that leaves 53 bits is the one of the canonical form. -/
theorem log2_of_canonical {m e : Nat} (h : Canonical m e) : (m * 2 ^ e).log2 - 52 = e := by
  obtain ⟨hm, -, rfl | hfull⟩ := h
  -- the lowest exponent takes any number of bits, every other one exactly 53
  · rw [Nat.pow_zero, Nat.mul_one]
    by_cases hzero : m = 0
    · rw [hzero, Nat.log2_zero]
    · have hlog : m.log2 < 53 := (Nat.log2_lt hzero).mpr hm
      omega
  · have hpos : 0 < 2 ^ e := Nat.two_pow_pos e
    have hlow : 2 ^ (52 + e) ≤ m * 2 ^ e := by
      rw [Nat.pow_add]
      exact Nat.mul_le_mul_right _ hfull
    have hhigh : m * 2 ^ e < 2 ^ (52 + e + 1) := by
      rw [show 52 + e + 1 = 53 + e by omega, Nat.pow_add]
      exact Nat.mul_lt_mul_of_pos_right hm hpos
    have hlog : (m * 2 ^ e).log2 = 52 + e :=
      (Nat.log2_eq_iff (Nat.pos_iff_ne_zero.mp (Nat.lt_of_lt_of_le (Nat.two_pow_pos _) hlow))).mpr
        ⟨hlow, hhigh⟩
    omega

/-- A value that a float can hold is its own nearest float. -/
theorem nearest_of_canonical (negative : Bool) {m e num den : Nat} (h : Canonical m e)
    (hden : 0 < den) (hvalue : num * unitsPerOne = m * 2 ^ e * den) :
    nearest negative num den = some ⟨negative, m, e, h⟩ := by
  have hquotient : num * unitsPerOne / den = m * 2 ^ e := by
    rw [hvalue, Nat.mul_div_cancel _ hden]
  have hround : roundHalfEven (num * unitsPerOne) (den * 2 ^ e) = m := by
    rw [hvalue, Nat.mul_assoc, Nat.mul_comm (2 ^ e) den]
    exact roundHalfEven_mul m (Nat.mul_pos hden (Nat.two_pow_pos e))
  simp only [nearest, hquotient, log2_of_canonical h, hround]
  rw [if_pos h.1, ofParts?, dif_pos h]

/-! ## Natural numbers -/

/-- The significand takes all 53 bits, unless the number is zero. -/
theorem canonical_natural {n : Nat} (h : n < 2 ^ 53) :
    Canonical (n * 2 ^ (52 - n.log2)) (if n = 0 then 0 else 1022 + n.log2) := by
  by_cases hzero : n = 0
  · rw [hzero, Nat.zero_mul, if_pos rfl]
    decide
  · have hlog : n.log2 < 53 := (Nat.log2_lt hzero).mpr h
    have hlow : 2 ^ 52 ≤ n * 2 ^ (52 - n.log2) := by
      rw [show 52 = n.log2 + (52 - n.log2) by omega, Nat.pow_add, Nat.add_sub_cancel_left]
      exact Nat.mul_le_mul_right _ (Nat.log2_self_le hzero)
    have hhigh : n * 2 ^ (52 - n.log2) < 2 ^ 53 := by
      rw [show 53 = n.log2 + 1 + (52 - n.log2) by omega, Nat.pow_add]
      exact Nat.mul_lt_mul_of_pos_right Nat.lt_log2_self (Nat.two_pow_pos _)
    rw [if_neg hzero]
    exact ⟨hhigh, by rw [maxExponent]; omega, .inr hlow⟩

/-- The float that a natural number below 2⁵³ is. -/
def natural (n : Nat) (h : n < 2 ^ 53) : Binary64 where
  negative := false
  significand := n * 2 ^ (52 - n.log2)
  exponent := if n = 0 then 0 else 1022 + n.log2
  canonical := canonical_natural h

theorem unitsPerOne_pos : 0 < unitsPerOne := by decide +kernel

theorem units_natural (n : Nat) (h : n < 2 ^ 53) : (natural n h).units = n * unitsPerOne := by
  by_cases hzero : n = 0
  · simp [units, natural, hzero]
  · have hlog : n.log2 < 53 := (Nat.log2_lt hzero).mpr h
    have hexponent : (natural n h).exponent = 1022 + n.log2 := if_neg hzero
    have hsum : 52 - n.log2 + (1022 + n.log2) = 1074 := by omega
    have hpower : ∀ {i j k : Nat}, i + j = k → 2 ^ i * 2 ^ j = 2 ^ k := by
      rintro i j _ rfl
      exact (Nat.pow_add 2 i j).symm
    rw [units, hexponent, natural, Nat.mul_assoc, hpower hsum, unitsPerOne]

theorem isWhole_natural (n : Nat) (h : n < 2 ^ 53) : (natural n h).isWhole = true := by
  rw [isWhole, units_natural, Nat.mul_mod_left, beq_self_eq_true]

theorem wholePart_natural (n : Nat) (h : n < 2 ^ 53) : (natural n h).wholePart = n := by
  rw [wholePart, units_natural, Nat.mul_div_cancel n unitsPerOne_pos]

/-- The float is worth the number. -/
theorem toNat?_natural (n : Nat) (h : n < 2 ^ 53) : (natural n h).toNat? = some n := by
  rw [toNat?, isWhole_natural, wholePart_natural, natural, Bool.not_false, Bool.true_or,
    Bool.true_and, if_pos rfl]

/-- The float nearest to `n` is `natural n`. -/
theorem nearest_natural (n : Nat) (h : n < 2 ^ 53) : nearest false n 1 = some (natural n h) := by
  apply nearest_of_canonical false (natural n h).canonical Nat.one_pos
  rw [Nat.mul_one]
  exact (units_natural n h).symm

/-- Read as a decimal `n` is `natural n`. -/
theorem ofDecimal_natural (n : Nat) (h : n < 2 ^ 53) :
    ofDecimal false n 0 = some (natural n h) := by
  rw [show (0 : Int) = .ofNat 0 from rfl, ofDecimal]
  split
  · rename_i hzero
    subst hzero
    rfl
  · rw [if_neg (by omega), Nat.pow_zero, Nat.mul_one, nearest_natural]

end PathQuery.Binary64

/-! ## Numerals -/

namespace PathQuery

/-- A text that starts with no sign has none to split off. -/
theorem Numeral.splitSign_of_ne {c : Char} (hplus : c ≠ '+') (hminus : c ≠ '-') (cs : List Char) :
    splitSign (c :: cs) = (false, c :: cs) := by
  unfold splitSign
  split
  · rename_i heq
    exact absurd (List.cons.inj heq).1 hplus
  · rename_i heq
    exact absurd (List.cons.inj heq).1 hminus
  · rfl

/-- Digits alone are a numeral, with or without a sign in front of them. -/
theorem Numeral.ofText?_of_splitSign {cs ds : List Char} {negative : Bool}
    (hsign : splitSign cs = (negative, ds)) (hne : ds ≠ []) (h : ∀ c ∈ ds, c.isDigit = true) :
    Numeral.ofText? cs = some ⟨negative, ds, [], 0⟩ := by
  have htake : ds.takeWhile Char.isDigit = ds := by
    rw [← List.append_nil ds, List.takeWhile_append_of_pos h]
    simp
  have hdrop : ds.dropWhile Char.isDigit = [] := by
    rw [← List.append_nil ds, List.dropWhile_append_of_pos h]
    rfl
  simp [ofText?, hsign, htake, hdrop, hne, tailOfText?]

theorem Numeral.splitSign_of_digits {ds : List Char} (hne : ds ≠ [])
    (h : ∀ c ∈ ds, c.isDigit = true) : splitSign ds = (false, ds) := by
  obtain ⟨d, rest, rfl⟩ := List.exists_cons_of_ne_nil hne
  have hdigit : d.isDigit = true := h d List.mem_cons_self
  exact splitSign_of_ne (fun he => absurd (he ▸ hdigit) (by decide))
    (fun he => absurd (he ▸ hdigit) (by decide)) rest

/-- Digits alone are a numeral that is not negative. -/
theorem Numeral.ofText?_of_digits {ds : List Char} (hne : ds ≠ [])
    (h : ∀ c ∈ ds, c.isDigit = true) :
    Numeral.ofText? ds = some ⟨false, ds, [], 0⟩ :=
  ofText?_of_splitSign (splitSign_of_digits hne h) hne h

/-- A numeral starts with a sign, a digit or a point. -/
theorem Numeral.ofText?_eq_none {c : Char} (hdigit : c.isDigit = false)
    (hsign : c ≠ '+' ∧ c ≠ '-' ∧ c ≠ '.') (cs : List Char) : Numeral.ofText? (c :: cs) = none := by
  obtain ⟨hplus, hminus, hpoint⟩ := hsign
  simp only [ofText?, splitSign_of_ne hplus hminus, List.takeWhile_cons, List.dropWhile_cons,
    hdigit, Bool.false_eq_true, if_false]
  rw [if_pos]
  split
  · rename_i heq
    exact absurd (List.cons.inj heq).1 hpoint
  · rfl

theorem Binary64.ofText?_eq_none {c : Char} (hdigit : c.isDigit = false)
    (hsign : c ≠ '+' ∧ c ≠ '-' ∧ c ≠ '.') (cs : List Char) : Binary64.ofText? (c :: cs) = none := by
  rw [Binary64.ofText?, Numeral.ofText?_eq_none hdigit hsign]
  rfl

/-- The decimal of a number consists of digits. -/
theorem isDigit_of_mem_toDigits {n : Nat} : ∀ c ∈ Nat.toDigits 10 n, c.isDigit = true :=
  fun _ hc => Nat.isDigit_of_mem_toDigits (by decide) (by decide) hc

theorem Binary64.ofText?_toDigits (n : Nat) (h : n < 2 ^ 53) :
    Binary64.ofText? (Nat.toDigits 10 n) = some (natural n h) := by
  rw [Binary64.ofText?, Numeral.ofText?_of_digits Nat.toDigits_ne_nil isDigit_of_mem_toDigits]
  have hvalue : Nat.ofDigitChars 10 (Nat.toDigits 10 n ++ []) 0 = n := by
    rw [List.append_nil, Nat.ofDigitChars_ten_toDigits]
  rw [Option.bind_some, Numeral.toBinary64?, Numeral.digits, hvalue]
  exact ofDecimal_natural n h

end PathQuery
