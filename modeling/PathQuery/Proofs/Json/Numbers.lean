import PathQuery.Json.Reader
import PathQuery.Json.Writer
import PathQuery.Proofs.Number.Shortest

/-!
# Numbers read back

* `Json.readValueWith_write_num`: what is written for a number is read as that number, provided that
  the text behind it does not go on like one (`Json.EndsNumber`).
* `readFraction_some`, `readExponent?_integerText`, `readNumber_whole`: what the parts of the reader
  make of the digits behind the point, of the exponent and of the digits in front.
* `toBinary64?_of_pieces`: put together again, the pieces of a float are the digits and the scale of
  its shortest decimal. A float is written with a point or an exponent, and an integer with neither.
-/

namespace PathQuery

/-! ## Digits -/

/-- The first digit of a number is not a zero. -/
theorem toDigits_eq_cons {n : Nat} (h : n ≠ 0) :
    ∃ c rest, Nat.toDigits 10 n = c :: rest ∧ c ≠ '0' := by
  induction n using Nat.strongRecOn with
  | ind n ih =>
    by_cases hsmall : n < 10
    · refine ⟨n.digitChar, [], Nat.toDigits_of_lt_base hsmall, ?_⟩
      have hdigit : ∀ m < 10, m ≠ 0 → Nat.digitChar m ≠ '0' := by decide
      exact hdigit n hsmall h
    · obtain ⟨c, rest, hdigits, hc⟩ := ih (n / 10) (by omega) (by omega)
      refine ⟨c, rest ++ [(n % 10).digitChar], ?_, hc⟩
      rw [Nat.toDigits_of_base_le (by decide) (by omega), hdigits, List.cons_append]

theorem takeWhile_digits {ds rest : List Char} (hds : ∀ c ∈ ds, c.isDigit = true)
    (hrest : ∀ c ∈ rest.head?, c.isDigit = false) : (ds ++ rest).takeWhile Char.isDigit = ds := by
  rw [List.takeWhile_append_of_pos hds]
  cases rest with
  | nil => simp
  | cons c rest => simp [hrest c rfl]

theorem dropWhile_digits {ds rest : List Char} (hds : ∀ c ∈ ds, c.isDigit = true)
    (hrest : ∀ c ∈ rest.head?, c.isDigit = false) : (ds ++ rest).dropWhile Char.isDigit = rest := by
  rw [List.dropWhile_append_of_pos hds]
  cases rest with
  | nil => rfl
  | cons c rest => simp [hrest c rfl]

/-- Digits in front of others only make the number larger. -/
theorem le_ofDigitChars (ds : List Char) (n : Nat) : n ≤ Nat.ofDigitChars 10 ds n := by
  rw [Nat.ofDigitChars_eq_ofDigitChars_zero]
  have hpow : 0 < 10 ^ ds.length := Nat.pow_pos (by decide)
  have hle : n ≤ 10 ^ ds.length * n := Nat.le_mul_of_pos_left n hpow
  omega

namespace Json

/-- The text does not go on like a number. -/
def EndsNumber (rest : List Char) : Prop :=
  ∀ c ∈ rest.head?, c.isDigit = false ∧ c ≠ '.' ∧ c ≠ 'e' ∧ c ≠ 'E'

variable {negative : Bool} {whole fraction rest : List Char}

/-! ## The fraction -/

theorem readFraction_none (h : rest.head? ≠ some '.') : readFraction rest = .ok (none, rest) := by
  unfold readFraction
  split
  · exact absurd rfl h
  · rfl

/-- Behind a point all the digits are the fraction. -/
theorem readFraction_some (hne : fraction ≠ []) (hds : ∀ c ∈ fraction, c.isDigit = true)
    (hrest : ∀ c ∈ rest.head?, c.isDigit = false) :
    readFraction ('.' :: (fraction ++ rest)) = .ok (some fraction, rest) := by
  have hempty : fraction.isEmpty = false := List.isEmpty_eq_false_iff.mpr hne
  rw [readFraction, takeWhile_digits hds hrest, dropWhile_digits hds hrest, hempty]
  rfl

/-! ## The exponent -/

/-- Digits of an exponent are read up to their end, unless it is too large. -/
theorem readExponentDigits_digits {ds : List Char} (hds : ∀ c ∈ ds, c.isDigit = true)
    (hrest : ∀ c ∈ rest.head?, c.isDigit = false) (soFar : Nat)
    (hmax : Nat.ofDigitChars 10 ds soFar ≤ maxExponent) :
    readExponentDigits soFar (ds ++ rest) = (Nat.ofDigitChars 10 ds soFar, rest) := by
  induction ds generalizing soFar with
  | nil =>
    cases rest with
    | nil => simp [readExponentDigits]
    | cons c rest => simp [readExponentDigits, hrest c rfl]
  | cons c ds ih =>
    rw [List.forall_mem_cons] at hds
    rw [Nat.ofDigitChars_cons] at hmax ⊢
    have hnext := le_ofDigitChars ds (10 * soFar + (c.toNat - '0'.toNat))
    rw [List.cons_append, readExponentDigits, if_pos hds.1]
    dsimp only
    rw [if_neg (by omega), ih hds.2 _ hmax]

theorem readExponent?_none (h : ∀ c ∈ rest.head?, c ≠ 'e' ∧ c ≠ 'E') (significant : Bool) :
    readExponent? significant rest = .ok (none, rest) := by
  cases rest with
  | nil => rfl
  | cons c rest =>
    obtain ⟨hlower, hupper⟩ := h c rfl
    simp [readExponent?, hlower, hupper]

/-- An exponent is read with either sign. -/
theorem readExponent_digits {n : Nat} (hmax : n ≤ maxExponent)
    (hrest : ∀ c ∈ rest.head?, c.isDigit = false) (negative significant : Bool) :
    readExponent significant
        ((if negative then '-' else '+') :: (Nat.toDigits 10 n ++ rest)) =
      .ok (if negative then -(n : Int) else n, rest) := by
  have hsplit : Numeral.splitSign
      ((if negative then '-' else '+') :: (Nat.toDigits 10 n ++ rest)) =
        (negative, Nat.toDigits 10 n ++ rest) := by
    cases negative <;> rfl
  have hread := readExponentDigits_digits (isDigit_of_mem_toDigits (n := n)) hrest 0
  have hvalue : Nat.ofDigitChars 10 (Nat.toDigits 10 n) 0 = n := Nat.ofDigitChars_ten_toDigits
  have hdrop : rest.dropWhile Char.isDigit = rest := @dropWhile_digits [] rest (by simp) hrest
  have hrange : ¬maxExponent < n := by omega
  rw [hvalue] at hread
  obtain ⟨c, ds, hdigits⟩ := List.exists_cons_of_ne_nil (Nat.toDigits_ne_nil (n := n) (b := 10))
  have hc : c.isDigit = true := isDigit_of_mem_toDigits c (hdigits ▸ List.mem_cons_self)
  rw [hdigits, List.cons_append] at hread hsplit
  rw [readExponent, hdigits, List.cons_append, hsplit]
  simp only [hc, hread hmax, hrange, hdrop, if_true, decide_false, Bool.false_and,
    Bool.false_eq_true, if_false]

/-- An exponent is written with its sign. -/
theorem readExponent?_integerText {e : Int} (hmax : e.natAbs ≤ maxExponent)
    (hrest : ∀ c ∈ rest.head?, c.isDigit = false) (significant : Bool) :
    readExponent? significant
        ('e' :: ((if 0 ≤ e then ['+'] else []) ++ (integerText e ++ rest))) =
      .ok (some e, rest) := by
  rw [readExponent?, if_pos (by decide)]
  cases e with
  | ofNat n =>
    have hread := readExponent_digits (n := n) hmax hrest false significant
    simp only [Bool.false_eq_true, if_false] at hread
    have hsign : 0 ≤ Int.ofNat n := Int.natCast_nonneg n
    rw [if_pos hsign, integerText, List.singleton_append, hread]
    rfl
  | negSucc n =>
    have hread := readExponent_digits (n := n + 1) hmax hrest true significant
    simp only [if_true] at hread
    have hsign : ¬0 ≤ Int.negSucc n := by omega
    rw [if_neg hsign, integerText, List.nil_append, List.cons_append, hread]
    rfl

/-! ## Numbers without their sign -/

/-- Pieces with a fraction or an exponent are a float. -/
theorem readNumberTail_float {cs behind : List Char} {fraction? : Option (List Char)}
    {exponent? : Option Int} {x : Binary64} (hfraction : readFraction cs = .ok (fraction?, behind))
    (hexponent : ∀ significant, readExponent? significant behind = .ok (exponent?, rest))
    (hfloat : fraction?.isNone = false ∨ exponent?.isNone = false)
    (hvalue : Numeral.toBinary64? ⟨negative, whole, fraction?.getD [], exponent?.getD 0⟩ = some x) :
    readNumberTail negative whole cs = .ok (.float x, rest) := by
  have hnone : (fraction?.isNone && exponent?.isNone) = false := by
    rcases hfloat with h | h <;> simp [h]
  simp only [readNumberTail, hfraction, hexponent, bind, Except.bind, hnone, Bool.false_eq_true,
    if_false, hvalue]
  rfl

/-- Digits alone are an integer, if it is one that is kept. -/
theorem readNumberTail_integer {n : Number} (hrest : EndsNumber rest)
    (hvalue : integer? negative whole = some n) :
    readNumberTail negative whole rest = .ok (n, rest) := by
  have hfraction : readFraction rest = .ok (none, rest) :=
    readFraction_none fun hpoint => (hrest '.' hpoint).2.1 rfl
  have hexponent := readExponent?_none fun c hc => (hrest c hc).2.2
  simp only [readNumberTail, hfraction, hexponent, bind, Except.bind, Option.isNone_none,
    Bool.and_self, if_true, hvalue]
  rfl

/-- What may stand in front of the point: a zero alone, or digits that do not begin with one. -/
def IsWhole (whole : List Char) : Prop :=
  whole = ['0'] ∨ (∃ c ds, whole = c :: ds ∧ c ≠ '0') ∧ ∀ c ∈ whole, c.isDigit = true

/-- What stands in front of the point is read up to it. -/
theorem readNumber_whole {cs : List Char} (hwhole : IsWhole whole)
    (hcs : ∀ c ∈ cs.head?, c.isDigit = false) :
    readNumber negative (whole ++ cs) = readNumberTail negative whole cs := by
  rcases hwhole with rfl | ⟨⟨c, ds, rfl, hc⟩, hdigits⟩
  · have hlone : (cs.head?.any Char.isDigit) = false := by
      cases cs with
      | nil => rfl
      | cons c cs => exact hcs c rfl
    rw [List.singleton_append, readNumber, if_pos rfl, hlone]
    rfl
  · rw [List.forall_mem_cons] at hdigits
    rw [List.cons_append, readNumber, if_neg hc, if_pos hdigits.1, takeWhile_digits hdigits.2 hcs,
      dropWhile_digits hdigits.2 hcs]

theorem isWhole_cons {c : Char} {ds : List Char} (hc : c ≠ '0')
    (hds : ∀ d ∈ c :: ds, d.isDigit = true) : IsWhole (c :: ds) :=
  .inr ⟨⟨c, ds, rfl, hc⟩, hds⟩

/-! ## Decimals -/

variable {d : Decimal} {x : Binary64}

/-- The digits of the pieces and the exponent make up the decimal. -/
theorem toBinary64?_of_pieces {exponent : Int}
    (hdigits : Nat.ofDigitChars 10 (whole ++ fraction) 0 = d.digits)
    (hscale : exponent - fraction.length = d.scale)
    (hx : Binary64.ofDecimal negative d.digits d.scale = some x) :
    Numeral.toBinary64? ⟨negative, whole, fraction, exponent⟩ = some x := by
  rw [Numeral.toBinary64?, Numeral.digits, hdigits, hscale, hx]

theorem head?_of_endsNumber (h : EndsNumber rest) : ∀ c ∈ rest.head?, c.isDigit = false :=
  fun c hc => (h c hc).1

/-- Behind a point stand the rest of the digits, and no exponent. -/
theorem readNumber_point (hwhole : IsWhole whole) (hne : fraction ≠ [])
    (hfraction : ∀ c ∈ fraction, c.isDigit = true) (hrest : EndsNumber rest)
    (hvalue : Numeral.toBinary64? ⟨negative, whole, fraction, 0⟩ = some x) :
    readNumber negative (whole ++ '.' :: (fraction ++ rest)) = .ok (.float x, rest) := by
  rw [readNumber_whole hwhole (by simp)]
  exact readNumberTail_float
    (readFraction_some hne hfraction (head?_of_endsNumber hrest))
    (readExponent?_none fun c hc => (hrest c hc).2.2) (.inl rfl) hvalue

section

-- a number as its digits are written, the first of which is not a zero
variable {digits : Nat} {c : Char} {ds : List Char} (hc : c ≠ '0')
  (hds : ∀ e ∈ c :: ds, e.isDigit = true) (hvalue : Nat.ofDigitChars 10 (c :: ds) 0 = digits)

include hc hds hvalue

/-- Digits, zeros, and a point with a zero behind it. -/
theorem readNumber_zeros {zeros : Nat} (hrest : EndsNumber rest)
    (hx : Binary64.ofDecimal negative digits (.ofNat zeros) = some x) :
    readNumber negative (c :: (ds ++ List.replicate zeros '0') ++ '.' :: (['0'] ++ rest)) =
      .ok (.float x, rest) := by
  have hzero : ∀ n, ∀ e ∈ List.replicate n '0', e.isDigit = true :=
    fun n e he => (List.eq_of_mem_replicate he).symm ▸ rfl
  have hall : ∀ e ∈ c :: (ds ++ List.replicate zeros '0'), e.isDigit = true := by
    rw [← List.cons_append]
    exact List.forall_mem_append.mpr ⟨hds, hzero zeros⟩
  -- the zeros and the one behind the point belong to the digits that are read
  have hspelled : Nat.ofDigitChars 10 (c :: (ds ++ List.replicate zeros '0') ++ ['0']) 0 =
      digits * 10 ^ (zeros + 1) := by
    rw [← List.cons_append, Nat.ofDigitChars_append, Nat.ofDigitChars_append, hvalue,
      Nat.ofDigitChars_replicate_zero, Nat.ofDigitChars_cons, Nat.ofDigitChars_nil, Nat.pow_succ]
    simp [Nat.mul_comm, Nat.mul_left_comm]
  have hscale : (0 : Int) - (['0'] : List Char).length + (zeros + 1 : Nat) = .ofNat zeros := by
    show (0 : Int) - (1 : Nat) + (zeros + 1 : Nat) = (zeros : Int)
    omega
  have hread : Numeral.toBinary64? ⟨negative, c :: (ds ++ List.replicate zeros '0'), ['0'], 0⟩ =
      some x := by
    rw [Numeral.toBinary64?, Numeral.digits, hspelled, Binary64.ofDecimal_mul_pow, hscale]
    exact hx
  exact readNumber_point (isWhole_cons hc hall) (List.cons_ne_nil _ _) (hzero 1) hrest hread

/-- Digits with the point between them. -/
theorem readNumber_split {n : Nat} (hplaces : n + 1 < (c :: ds).length) (hrest : EndsNumber rest)
    (hx : Binary64.ofDecimal negative digits (.negSucc n) = some x) :
    readNumber negative ((c :: ds).take ((c :: ds).length - (n + 1)) ++
        '.' :: ((c :: ds).drop ((c :: ds).length - (n + 1)) ++ rest)) = .ok (.float x, rest) := by
  have hsplit := List.take_append_drop ((c :: ds).length - (n + 1)) (c :: ds)
  have hlength : ((c :: ds).drop ((c :: ds).length - (n + 1))).length = n + 1 := by
    rw [List.length_drop]
    omega
  have htake : (c :: ds).take ((c :: ds).length - (n + 1)) =
      c :: ds.take ((c :: ds).length - (n + 1) - 1) := by
    rw [← List.take_succ_cons]
    congr 1
    omega
  have hwhole : IsWhole ((c :: ds).take ((c :: ds).length - (n + 1))) := by
    rw [htake]
    exact isWhole_cons hc fun e he => hds e (List.mem_of_mem_take (htake ▸ he))
  have hread : Numeral.toBinary64? ⟨negative, (c :: ds).take ((c :: ds).length - (n + 1)),
      (c :: ds).drop ((c :: ds).length - (n + 1)), 0⟩ = some x :=
    toBinary64?_of_pieces (d := ⟨digits, .negSucc n⟩) (by rw [hsplit, hvalue])
      (by dsimp only; omega) hx
  exact readNumber_point hwhole (List.ne_nil_of_length_eq_add_one hlength)
    (fun e he => hds e (List.mem_of_mem_drop he)) hrest hread

omit hc in
/-- A lone zero, the point, zeros and then the digits. -/
theorem readNumber_behind {n : Nat} (hplaces : (c :: ds).length ≤ n + 1) (hrest : EndsNumber rest)
    (hx : Binary64.ofDecimal negative digits (.negSucc n) = some x) :
    readNumber negative
        (['0'] ++ '.' :: (List.replicate (n + 1 - (c :: ds).length) '0' ++ c :: ds ++ rest)) =
      .ok (.float x, rest) := by
  have hall : ∀ e ∈ List.replicate (n + 1 - (c :: ds).length) '0' ++ c :: ds, e.isDigit = true :=
    List.forall_mem_append.mpr ⟨fun e he => (List.eq_of_mem_replicate he).symm ▸ rfl, hds⟩
  have hread : Numeral.toBinary64? ⟨negative, ['0'],
      List.replicate (n + 1 - (c :: ds).length) '0' ++ c :: ds, 0⟩ = some x := by
    refine toBinary64?_of_pieces (d := ⟨digits, .negSucc n⟩) ?_ ?_ hx
    · rw [List.singleton_append, Nat.ofDigitChars_cons, Nat.ofDigitChars_append,
        Nat.ofDigitChars_replicate_zero]
      exact hvalue
    · rw [List.length_append, List.length_replicate]
      dsimp only
      omega
  exact readNumber_point (.inl rfl) (List.append_ne_nil_of_right_ne_nil _ (by simp)) hall hrest
    hread

end

/-- The plain layout of a float is read as the float. -/
theorem readNumber_plainText (hne : d.digits ≠ 0)
    (hx : Binary64.ofDecimal negative d.digits d.scale = some x) (hrest : EndsNumber rest) :
    readNumber negative (FloatLayout.json.plainText d ++ rest) = .ok (.float x, rest) := by
  obtain ⟨c, ds, htext, hc⟩ := toDigits_eq_cons hne
  have hdigits : ∀ e ∈ c :: ds, e.isDigit = true := htext ▸ isDigit_of_mem_toDigits
  have hvalue : Nat.ofDigitChars 10 (c :: ds) 0 = d.digits := by
    rw [← htext, Nat.ofDigitChars_ten_toDigits]
  obtain ⟨digits, scale⟩ := d
  rw [FloatLayout.plainText, Decimal.text, htext]
  cases scale with
  | ofNat zeros => simpa [FloatLayout.json] using readNumber_zeros hc hdigits hvalue hrest hx
  | negSucc n =>
    dsimp only
    split
    · rename_i hplaces
      rw [List.append_assoc, List.cons_append]
      exact readNumber_split hc hdigits hvalue hplaces hrest hx
    · rename_i hplaces
      simpa using readNumber_behind hdigits hvalue (Nat.not_lt.mp hplaces) hrest hx

/-- The scientific layout of a float is read as the float. -/
theorem readNumber_scientificText (hne : d.digits ≠ 0) (hrange : d.leading.natAbs ≤ maxExponent)
    (hx : Binary64.ofDecimal negative d.digits d.scale = some x) (hrest : EndsNumber rest) :
    readNumber negative (FloatLayout.json.scientificText d ++ rest) = .ok (.float x, rest) := by
  obtain ⟨c, ds, htext, hc⟩ := toDigits_eq_cons hne
  have hdigits : ∀ e ∈ c :: ds, e.isDigit = true := htext ▸ isDigit_of_mem_toDigits
  have hvalue : Nat.ofDigitChars 10 ([c] ++ ds) 0 = d.digits := by
    rw [List.singleton_append, ← htext, Nat.ofDigitChars_ten_toDigits]
  have hscale : d.leading - ds.length = d.scale := by
    rw [Decimal.leading, Decimal.text, htext, List.length_cons]
    omega
  have hread : Numeral.toBinary64? ⟨negative, [c], ds, d.leading⟩ = some x :=
    toBinary64?_of_pieces hvalue hscale hx
  have hwhole : IsWhole [c] := isWhole_cons hc fun e he => hdigits e (by simp_all)
  have hexponent := readExponent?_integerText hrange (head?_of_endsNumber hrest)
  -- what stands behind the digits, from the exponent on
  obtain ⟨behind, hbehind⟩ : ∃ behind,
      behind = 'e' :: ((if 0 ≤ d.leading then ['+'] else []) ++ (integerText d.leading ++ rest)) :=
    ⟨_, rfl⟩
  rw [← hbehind] at hexponent
  have hstops : ∀ e ∈ behind.head?, e.isDigit = false := by rw [hbehind]; simp
  have hspelled : FloatLayout.json.scientificText d ++ rest =
      [c] ++ ((if ds.isEmpty then [] else '.' :: ds) ++ behind) := by
    rw [FloatLayout.scientificText, Decimal.text, htext, hbehind]
    simp [FloatLayout.json]
  rw [hspelled]
  by_cases hnil : ds = []
  · subst hnil
    have hnopoint : behind.head? ≠ some '.' := by rw [hbehind]; simp
    have htail := readNumberTail_float (readFraction_none hnopoint) hexponent (.inr rfl) hread
    rw [← htail]
    exact readNumber_whole hwhole hstops
  · have hpoint : (if ds.isEmpty then [] else '.' :: ds) ++ behind = '.' :: (ds ++ behind) := by
      rw [List.isEmpty_eq_false_iff.mpr hnil]
      rfl
    have hfraction := readFraction_some hnil (List.forall_mem_cons.mp hdigits).2 hstops
    have htail := readNumberTail_float hfraction hexponent (.inl rfl) hread
    rw [hpoint, ← htail]
    exact readNumber_whole hwhole (by simp)

/-! ## Numbers as values -/

/-- A number begins with a digit. -/
theorem head_of_readNumber {cs : List Char} {n : Number}
    (h : readNumber negative cs = .ok (n, rest)) : ∃ c ds, cs = c :: ds ∧ c.isDigit = true := by
  cases cs with
  | nil => cases h
  | cons c ds =>
    refine ⟨c, ds, rfl, ?_⟩
    rw [readNumber] at h
    split at h
    · rename_i hzero
      rw [hzero]
      rfl
    · split at h
      · assumption
      · cases h

/-- A value that begins with a sign or a digit is a number. -/
theorem readValueWith_number (readItem? : Option (List Char → Outcome Value)) {cs : List Char}
    {n : Number} (h : readNumber negative cs = .ok (n, rest)) :
    readValueWith readItem? (if negative then '-' :: cs else cs) = .ok (.num n, rest) := by
  cases negative with
  | true =>
    have hblank : skipBlanks ('-' :: cs) = '-' :: cs := rfl
    rw [if_pos rfl, readValueWith, hblank]
    simp only [h]
    rfl
  | false =>
    -- a digit is none of the characters that other values begin with
    obtain ⟨c, ds, rfl, hc⟩ := head_of_readNumber h
    have hne : ∀ e : Char, e.isDigit = false → c ≠ e := by
      rintro e he rfl
      rw [hc] at he
      cases he
    have hblank : skipBlanks (c :: ds) = c :: ds := by
      have hspace : isBlank c = false := by simp [isBlank, hne]
      simp [skipBlanks, hspace]
    rw [if_neg (by decide), readValueWith, hblank]
    split
    case h_1 heq => cases heq
    case h_9 heq =>
      cases heq
      rw [if_pos hc, h]
      rfl
    all_goals
      rename_i heq
      have hhead := (List.cons.inj heq).1
      exact absurd hhead (hne _ (by decide))

/-! ## What is written -/

/-- The text of a float, behind its sign. -/
theorem readNumber_decimal (hne : d.digits ≠ 0) (hrange : d.leading.natAbs ≤ maxExponent)
    (hx : Binary64.ofDecimal negative d.digits d.scale = some x) (hrest : EndsNumber rest) :
    readNumber negative
        ((if FloatLayout.json.isPlain d.leading then FloatLayout.json.plainText d
          else FloatLayout.json.scientificText d) ++ rest) = .ok (.float x, rest) := by
  split
  · exact readNumber_plainText hne hx hrest
  · exact readNumber_scientificText hne hrange hx hrest

theorem readNumber_zero (hrest : EndsNumber rest) :
    readNumber negative (FloatLayout.json.plainText ⟨0, 0⟩ ++ rest) =
      .ok (.float (.zero negative), rest) := by
  have hread : Numeral.toBinary64? ⟨negative, ['0'], ['0'], 0⟩ = some (.zero negative) :=
    Binary64.ofDecimal_zero negative _
  exact readNumber_point (.inl rfl) (List.cons_ne_nil _ _) (by simp) hrest hread

theorem readValueWith_float (readItem? : Option (List Char → Outcome Value))
    (hrest : EndsNumber rest) (x : Binary64) :
    readValueWith readItem? (FloatLayout.json.text x ++ rest) = .ok (.num (.float x), rest) := by
  obtain ⟨d, hd, hread⟩ : ∃ d : Decimal,
      (if x.isZero then ⟨0, 0⟩ else x.shortest FloatLayout.json.tie) = d ∧
        readNumber x.negative
          ((if FloatLayout.json.isPlain d.leading then FloatLayout.json.plainText d
            else FloatLayout.json.scientificText d) ++ rest) = .ok (.float x, rest) := by
    -- zero has no leading digit, and its text does not come from the search
    cases hzero : x.isZero with
    | true =>
      refine ⟨⟨0, 0⟩, if_pos rfl, ?_⟩
      have hplain : FloatLayout.json.isPlain (Decimal.leading ⟨0, 0⟩) = true := by decide
      rw [if_pos hplain, readNumber_zero hrest, ← Binary64.eq_zero_of_isZero hzero]
    | false =>
      refine ⟨x.shortest FloatLayout.json.tie, if_neg (by decide), ?_⟩
      generalize hshortest : x.shortest FloatLayout.json.tie = d
      have hback : x.readsBack d = true := hshortest ▸ x.readsBack_shortest FloatLayout.json.tie
      have hne := Binary64.digits_ne_zero hback hzero
      have hhigh := Binary64.leading_lt hback hne (by decide : 342 ≤ 400)
      have hlow := Binary64.lt_leading hback hzero
      have hx := Binary64.ofDecimal_signed x.negative (Binary64.readsBack_iff.mp hback)
      exact readNumber_decimal hne (by rw [maxExponent]; omega) hx hrest
  have hvalue := readValueWith_number readItem? hread
  rw [FloatLayout.text, hd]
  split
  · rename_i hnegative
    rw [if_pos hnegative] at hvalue
    exact hvalue
  · rename_i hnegative
    rw [if_neg hnegative] at hvalue
    exact hvalue

theorem readValueWith_int (readItem? : Option (List Char → Outcome Value))
    (hrest : EndsNumber rest) (i : Int) (fits : Number.Fits i) :
    readValueWith readItem? (integerText i ++ rest) = .ok (.num (.int i fits), rest) := by
  have hwhole (n : Nat) : IsWhole (Nat.toDigits 10 n) := by
    by_cases hzero : n = 0
    · rw [hzero]
      exact .inl rfl
    · obtain ⟨c, ds, hdigits, hc⟩ := toDigits_eq_cons hzero
      rw [hdigits]
      exact isWhole_cons hc (hdigits ▸ isDigit_of_mem_toDigits)
  have hread (negative : Bool) (n : Nat)
      (hvalue : integer? negative (Nat.toDigits 10 n) = some (.int i fits)) :
      readNumber negative (Nat.toDigits 10 n ++ rest) = .ok (.int i fits, rest) := by
    rw [readNumber_whole (hwhole n) (head?_of_endsNumber hrest)]
    exact readNumberTail_integer hrest hvalue
  cases i with
  | ofNat n =>
    have hvalue : integer? false (Nat.toDigits 10 n) = some (.int (.ofNat n) fits) := by
      have hfits : Number.Fits (n : Int) := fits
      simp [integer?, Nat.ofDigitChars_ten_toDigits, hfits]
    exact readValueWith_number readItem? (hread false n hvalue)
  | negSucc n =>
    have hvalue : integer? true (Nat.toDigits 10 (n + 1)) = some (.int (.negSucc n) fits) := by
      have hfits : Number.Fits (-((n + 1 : Nat) : Int)) := fits
      have hne : ((n + 1 : Nat) : Int) ≠ 0 := by omega
      simp only [integer?, Nat.ofDigitChars_ten_toDigits, if_true, hne, decide_false,
        Bool.and_false, Bool.false_eq_true, if_false, hfits, dif_pos]
      rfl
    exact readValueWith_number readItem? (hread true (n + 1) hvalue)

/-- What is written for a number is read as that number. -/
theorem readValueWith_write_num (readItem? : Option (List Char → Outcome Value))
    (hrest : EndsNumber rest) (n : Number) :
    readValueWith readItem? (n.write ++ rest) = .ok (.num n, rest) := by
  cases n with
  | int i fits => exact readValueWith_int readItem? hrest i fits
  | float x => exact readValueWith_float readItem? hrest x

end Json

end PathQuery
