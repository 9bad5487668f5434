import Mathlib.Algebra.Order.Field.Basic
import Mathlib.Algebra.Order.Ring.Rat
import Mathlib.Data.Int.CharZero
import PathQuery.Evaluation.Walk
import PathQuery.Proofs.Number.Shortest

/-!
# Numbers render by their value

`Number.value` is the rational that a number is worth, kept as an integer or as a float.
`render_eq_iff_value` says that a number with the value of an integer below 10¹⁵ in magnitude
renders as this integer, and that exactly the numbers of this value do.

* `Number.render_of_value`: a whole float below 10¹⁵ is spelled as an integer.
* `Binary64.value_of_text`: any other float is spelled by its shortest decimal, which reads back
  (`Binary64.readsBack_written`). Integers below 2⁵³ are floats, so the spelling of one of them
  reads as this integer.
-/

namespace PathQuery

/-! ## Signs in front of digits -/

/-- The text of an integer is the one of its magnitude, behind a sign if it is negative. -/
theorem integerText_eq_ite (i : Int) :
    integerText i =
      if decide (i < 0) then '-' :: Nat.toDigits 10 i.natAbs else Nat.toDigits 10 i.natAbs := by
  cases i with
  | ofNat n => rfl
  | negSucc n =>
    rw [decide_eq_true (Int.negSucc_lt_zero n), if_pos rfl]
    rfl

/-- The decimal of an integer is the one that the standard library prints. -/
theorem ofList_integerText (i : Int) : String.ofList (integerText i) = toString i := by
  cases i with
  | ofNat n => exact Nat.toString_eq_ofList_toDigits.symm
  | negSucc n =>
    show String.ofList (['-'] ++ Nat.toDigits 10 (n + 1)) = "-" ++ (n + 1).repr
    rw [Nat.repr_eq_ofList_toDigits, String.ofList_append]

/-- Signs can be told from what stands behind them. -/
theorem eq_of_signed_eq {p q : Bool} {cs ds : List Char} (hcs : '-' ∉ cs) (hds : '-' ∉ ds)
    (h : (if p then '-' :: cs else cs) = if q then '-' :: ds else ds) : p = q ∧ cs = ds := by
  cases p <;> cases q <;> simp only [if_true, if_false, Bool.false_eq_true] at h
  · exact ⟨rfl, h⟩
  · exact absurd (h ▸ List.mem_cons_self) hcs
  · exact absurd (h ▸ List.mem_cons_self) hds
  · exact ⟨rfl, List.tail_eq_of_cons_eq h⟩

theorem minus_not_mem_toDigits (n : Nat) : '-' ∉ Nat.toDigits 10 n := fun h =>
  absurd (isDigit_of_mem_toDigits _ h) (by decide)

/-- Different natural numbers have different decimals. -/
theorem toDigits_injective : Function.Injective (Nat.toDigits 10) := fun m n h => by
  rw [← Nat.ofDigitChars_ten_toDigits (n := m), h, Nat.ofDigitChars_ten_toDigits]

/-- Different integers have different texts. -/
theorem integerText_injective : Function.Injective integerText := by
  intro i j h
  rw [integerText_eq_ite, integerText_eq_ite] at h
  obtain ⟨hsign, hdigits⟩ :=
    eq_of_signed_eq (minus_not_mem_toDigits _) (minus_not_mem_toDigits _) h
  have hmagnitude : i.natAbs = j.natAbs := toDigits_injective hdigits
  have hnegative : i < 0 ↔ j < 0 := decide_eq_decide.mp hsign
  omega

/-! ## What a number is worth -/

namespace Binary64

variable {x : Binary64} {n : Int}

/-- The value of a float. Both zeros are zero. -/
def value (x : Binary64) : ℚ := (if x.negative then -(x.units : ℚ) else x.units) / unitsPerOne

/-- A whole part with the sign of the float. -/
def wholeValue (x : Binary64) : Int := if x.negative then -(x.wholePart : Int) else x.wholePart

/-- A natural number is an integer multiple of another one if it is divided by it without a rest. -/
theorem natCast_eq_mul_iff {m k : Nat} (hk : 0 < k) :
    (m : Int) = n * k ↔ m % k = 0 ∧ ((m / k : Nat) : Int) = n := by
  have hne : (k : Int) ≠ 0 := Int.natCast_ne_zero.mpr hk.ne'
  have hquotient (hdvd : k ∣ m) : ((m / k : Nat) : Int) = n ↔ (m : Int) = n * k := by
    rw [Int.natCast_ediv]
    exact Int.ediv_eq_iff_eq_mul_left hne (Int.natCast_dvd_natCast.mpr hdvd)
  constructor
  · intro h
    have hdvd : k ∣ m := Int.natCast_dvd_natCast.mp (Dvd.intro_left n h.symm)
    exact ⟨Nat.mod_eq_zero_of_dvd hdvd, (hquotient hdvd).mpr h⟩
  · rintro ⟨hrest, h⟩
    exact (hquotient (Nat.dvd_of_mod_eq_zero hrest)).mp h

/-- A float is worth an integer if it is whole, and its whole part with its sign is this integer. -/
theorem value_eq_iff : x.value = n ↔ x.isWhole = true ∧ x.wholeValue = n := by
  rw [value, wholeValue, isWhole, wholePart, beq_iff_eq]
  have hpos := unitsPerOne_pos
  -- nothing here depends on how many units there are
  generalize unitsPerOne = k at hpos ⊢
  rw [div_eq_iff (Nat.cast_ne_zero.mpr hpos.ne')]
  cases x.negative with
  | false =>
    simp only [Bool.false_eq_true, if_false]
    rw [← natCast_eq_mul_iff hpos]
    norm_cast
  | true =>
    simp only [if_true]
    rw [neg_eq_iff_eq_neg, neg_eq_iff_eq_neg, ← neg_mul, ← natCast_eq_mul_iff hpos]
    norm_cast

end Binary64

/-- The value of a number, however it is kept. -/
def Number.value : Number → ℚ
  | .int i _ => i
  | .float x => x.value

/-! ## Spelled like an integer -/

namespace FloatLayout

variable {d : Decimal}

/-- Positional notation has digits and a point. -/
theorem isDigit_or_point_of_mem_plainText :
    ∀ c ∈ rendered.plainText d, c.isDigit = true ∨ c = '.' := by
  have hdigits : ∀ c ∈ d.text, c.isDigit = true := isDigit_of_mem_toDigits
  have hzeros (n : Nat) : ∀ c ∈ List.replicate n '0', c.isDigit = true :=
    fun _ hc => (List.eq_of_mem_replicate hc).symm ▸ rfl
  intro c hc
  rw [plainText] at hc
  dsimp only at hc
  split at hc
  -- the point behind all digits, between them, and in front of them
  · simp only [rendered, Bool.false_eq_true, if_false, List.append_nil, List.mem_append] at hc
    exact .inl (hc.elim (hdigits c) (hzeros _ c))
  split at hc
  · rcases List.mem_append.mp hc with hfront | hbehind
    · exact .inl (hdigits c (List.mem_of_mem_take hfront))
    · rcases List.mem_cons.mp hbehind with hpoint | hrest
      · exact .inr hpoint
      · exact .inl (hdigits c (List.mem_of_mem_drop hrest))
  · simp only [List.cons_append, List.mem_cons, List.mem_append] at hc
    obtain rfl | hpoint | hzero | hdigit := hc
    · exact .inl rfl
    · exact .inr hpoint
    · exact .inl (hzeros _ c hzero)
    · exact .inl (hdigits c hdigit)

/-- A decimal that is spelled like a natural number has this number as its value. -/
theorem exists_zeros_of_plainText {n : Nat} (h : rendered.plainText d = Nat.toDigits 10 n) :
    ∃ zeros : Nat, d.scale = zeros ∧ d.digits * 10 ^ zeros = n := by
  obtain ⟨digits, scale⟩ := d
  rw [plainText] at h
  cases scale with
  | ofNat zeros =>
    have hvalue := congrArg (Nat.ofDigitChars 10 · 0) h
    simp only [rendered, Bool.false_eq_true, if_false, List.append_nil, Decimal.text,
      Nat.ofDigitChars_append, Nat.ofDigitChars_ten_toDigits,
      Nat.ofDigitChars_replicate_zero] at hvalue
    exact ⟨zeros, rfl, (Nat.mul_comm _ _).trans hvalue⟩
  | negSucc places =>
    -- the point would be one of the digits
    have hpoint : '.' ∈ Nat.toDigits 10 n := by
      rw [← h]
      dsimp only
      split <;> simp
    exact absurd (isDigit_of_mem_toDigits _ hpoint) (by decide)

end FloatLayout

namespace Binary64

variable {x : Binary64} {n : Int}

/-- The decimal that a float is written with reads back, also the one of zero. -/
theorem readsBack_written (tie : Tie) (x : Binary64) :
    x.readsBack (if x.isZero then ⟨0, 0⟩ else x.shortest tie) = true := by
  split
  · rename_i hzero
    rw [readsBack_iff, ofDecimal_zero, eq_zero_of_isZero hzero]
    rfl
  · exact x.readsBack_shortest tie

/-- A float that is written out like an integer below 2⁵³ is worth this integer. -/
theorem value_of_text (hn : n.natAbs < 2 ^ 53)
    (h : FloatLayout.rendered.text x = integerText n) : x.value = n := by
  have hback := x.readsBack_written FloatLayout.rendered.tie
  rw [FloatLayout.text] at h
  generalize (if x.isZero then ⟨0, 0⟩ else x.shortest FloatLayout.rendered.tie) = d at h hback
  -- no exponent is ever written, so the spelling is a sign and digits with a point
  have hplain : FloatLayout.rendered.isPlain d.leading = true := rfl
  rw [if_pos hplain, integerText_eq_ite] at h
  have hbody : '-' ∉ FloatLayout.rendered.plainText d := fun hmem =>
    absurd (FloatLayout.isDigit_or_point_of_mem_plainText _ hmem) (by decide)
  obtain ⟨hsign, hdigits⟩ := eq_of_signed_eq hbody (minus_not_mem_toDigits _) h
  obtain ⟨zeros, hscale, hvalue⟩ := FloatLayout.exists_zeros_of_plainText hdigits
  -- both the float and the integer are what the decimal is read as
  have hmagnitude : x.magnitude = natural n.natAbs hn := by
    have hread := ofDecimal_mul_pow false d.digits zeros 0
    rw [Int.zero_add, ← hscale, readsBack_iff.mp hback, hvalue, ofDecimal_natural _ hn] at hread
    exact (Option.some.inj hread).symm
  have hwhole : x.isWhole = true :=
    (congrArg isWhole hmagnitude).trans (isWhole_natural _ hn)
  have hpart : x.wholePart = n.natAbs :=
    (congrArg wholePart hmagnitude).trans (wholePart_natural _ hn)
  rw [value_eq_iff, wholeValue, hpart, hsign]
  refine ⟨hwhole, ?_⟩
  simp only [decide_eq_true_eq]
  split <;> omega

end Binary64

namespace Number

variable {a : Number} {n : Int}

/-- What is worth a moderate integer is spelled like it. -/
theorem render_of_value (h : a.value = n) (hn : n.natAbs < integerBelow) :
    a.render = integerText n := by
  cases a with
  | int i fits => rw [render, Int.cast_injective h]
  | float x =>
    obtain ⟨hwhole, hvalue⟩ := Binary64.value_eq_iff.mp h
    have hpart : x.wholePart = n.natAbs := by
      rw [← hvalue, Binary64.wholeValue]
      split <;> omega
    have hmoderate : (x.isWhole && x.wholePart < integerBelow) = true := by
      rw [hwhole, hpart, decide_eq_true hn]
      rfl
    rw [render, if_pos hmoderate, ← hvalue, Binary64.wholeValue]

/-- What is spelled like a moderate integer is worth it. -/
theorem value_of_render (h : a.render = integerText n) (hn : n.natAbs < 2 ^ 53) : a.value = n := by
  cases a with
  | int i fits => rw [value, integerText_injective h]
  | float x =>
    rw [render] at h
    -- a float from 10¹⁵ on, or one with a fraction, could only collide by its shortest decimal
    split at h
    · rename_i hmoderate
      rw [Bool.and_eq_true] at hmoderate
      exact Binary64.value_eq_iff.mpr ⟨hmoderate.1, integerText_injective h⟩
    · exact Binary64.value_of_text hn h

end Number

/-- A number that is worth a moderate integer renders as the decimal of this integer. What renders
alike is worth the same, however large it is and however it is kept. -/
theorem render_eq_iff_value {a : Number} {n : Int} (h : a.value = n) (hn : |n| < 10 ^ 15) :
    String.ofList (Value.num a).render = toString n ∧
      ∀ b : Number, (Value.num b).render = (Value.num a).render ↔ b.value = n := by
  have hbelow : n.natAbs < Number.integerBelow := by
    rw [Int.abs_eq_natAbs] at hn
    exact_mod_cast hn
  have hexact : n.natAbs < 2 ^ 53 := Nat.lt_trans hbelow (by decide)
  have hrender : a.render = integerText n := Number.render_of_value h hbelow
  constructor
  · rw [Value.render, hrender, ofList_integerText]
  · intro b
    rw [Value.render, Value.render, hrender]
    exact ⟨fun hb => Number.value_of_render hb hexact, fun hb => Number.render_of_value hb hbelow⟩

/-- Five written as `5`, as `5.0` and as `50e-1`, and the zero with a sign. -/
theorem render_eq_iff_value_kinds :
    let five : Number := .float (.natural 5 (by decide))
    let zero : Number := .float (.zero true)
    let integer : Number := .int 5 (by decide)
    Binary64.ofDecimal false 50 (-1) = some (.natural 5 (by decide)) ∧
      five.value = (5 : Int) ∧ |(5 : Int)| < 10 ^ 15 ∧
      zero.value = (0 : Int) ∧ |(0 : Int)| < 10 ^ 15 ∧
      String.ofList (Value.num five).render = "5" ∧
      ((Value.num integer).render = (Value.num five).render ↔ integer.value = (5 : Int)) ∧
      String.ofList (Value.num zero).render = "0" ∧
      ((Value.num five).render = (Value.num zero).render ↔ five.value = (0 : Int)) := by
  intro five zero integer
  have hfive : five.value = (5 : Int) :=
    Binary64.value_eq_iff.mpr ⟨Binary64.isWhole_natural 5 (by decide),
      congrArg Nat.cast (Binary64.wholePart_natural 5 (by decide))⟩
  have hzero : zero.value = (0 : Int) := Binary64.value_eq_iff.mpr (by decide +kernel)
  have hmoderate : |(5 : Int)| < 10 ^ 15 := by decide
  have hmoderate' : |(0 : Int)| < 10 ^ 15 := by decide
  have hspelled := render_eq_iff_value hfive hmoderate
  have hspelled' := render_eq_iff_value hzero hmoderate'
  exact ⟨by decide +kernel, hfive, hmoderate, hzero, hmoderate', hspelled.1, hspelled.2 integer,
    hspelled'.1, hspelled'.2 five⟩

/-- Far beyond 2⁵³ a float may be spelled like an integer that it is not worth. -/
example :
    let x : Binary64 := ⟨false, 2 ^ 52, 1082, by decide⟩
    x.units = 2 ^ 60 * Binary64.unitsPerOne ∧ 2 ^ 60 ≠ 1152921504606847000 ∧
      (Number.float x).render = integerText 1152921504606847000 := by
  decide +kernel

end PathQuery
