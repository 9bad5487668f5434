import PathQuery.Proofs.Evaluation.Composition
import PathQuery.Proofs.Number.Rounding
import PathQuery.Proofs.Path.Argument
import PathQuery.Proofs.Path.Brackets

/-!
# Integers as indexes

`IntegerText` is an integer in decimal with any sign and any number of digits. It is read as the
nearest float, and `evaluate_integer` says that it selects the element it counts to nevertheless.

* Below 2⁵³ the float is exact (`Binary64.natural`), and `-0` is the first element.
* From 2⁵³ on no integer is read as one below (`Binary64.le_of_toNat?`), where the elements are.
* From 2¹⁰²⁴ on the text is a key (`IntegerText.segment_of_huge`), which an array does not have.
-/

namespace PathQuery

/-! ## Integers as they are written -/

/-- What may stand in front of the digits. -/
inductive Sign where
  | absent
  | plus
  | minus
deriving DecidableEq

/-- The sign as it is written. -/
def Sign.chars : Sign → List Char
  | absent => []
  | plus => ['+']
  | minus => ['-']

/-- An integer in decimal, with as many digits as one likes. -/
structure IntegerText where
  sign : Sign
  digits : List Char
  ne_nil : digits ≠ []
  isDigit : ∀ c ∈ digits, c.isDigit = true

namespace IntegerText

variable (t : IntegerText)

/-- The integer as it is written. -/
def chars : List Char := t.sign.chars ++ t.digits

/-- The text of the integer. -/
def text : String := String.ofList t.chars

/-- Whether a minus sign is written. -/
def isNegative : Bool := t.sign = .minus

/-- The integer without its sign. -/
def magnitude : Nat := Nat.ofDigitChars 10 t.digits 0

/-- The integer that is written. -/
def value : Int := if t.isNegative then -(t.magnitude : Int) else t.magnitude

/-- An integer consists of digits and a sign. -/
theorem isDigit_or_sign : ∀ c ∈ t.chars, c.isDigit = true ∨ c = '+' ∨ c = '-' := by
  rw [chars, List.forall_mem_append]
  constructor
  · cases t.sign <;> simp [Sign.chars]
  · exact fun c hc => .inl (t.isDigit c hc)

theorem trim_chars : Text.trim t.chars = t.chars := by
  refine Text.trim_of_forall fun c hc => ?_
  rcases t.isDigit_or_sign c hc with hdigit | rfl | rfl
  · exact Segment.isBlank_of_isDigit hdigit
  · decide
  · decide

theorem plain : ∀ c ∈ t.chars, Counts.isStructural c = false := by
  intro c hc
  rcases t.isDigit_or_sign c hc with hdigit | rfl | rfl
  · exact Counts.isStructural_of_isDigit hdigit
  · decide
  · decide

theorem not_mem {c : Char} (hdigit : c.isDigit = false) (hsign : c ≠ '+' ∧ c ≠ '-') :
    c ∉ t.chars := by
  intro hc
  rcases t.isDigit_or_sign c hc with h | h | h
  · rw [hdigit] at h
    cases h
  · exact hsign.1 h
  · exact hsign.2 h

/-! ## The segment that an integer is -/

theorem splitSign_chars : Numeral.splitSign t.chars = (t.isNegative, t.digits) := by
  rw [chars, isNegative]
  cases t.sign with
  | absent => exact Numeral.splitSign_of_digits t.ne_nil t.isDigit
  | plus => rfl
  | minus => rfl

/-- It is read as the float nearest to it. -/
theorem ofText?_chars :
    Binary64.ofText? t.chars = Binary64.ofDecimal t.isNegative t.magnitude 0 := by
  rw [Binary64.ofText?, Numeral.ofText?_of_splitSign t.splitSign_chars t.ne_nil t.isDigit,
    Option.bind_some, Numeral.toBinary64?, Numeral.digits, List.append_nil]
  rfl

/-- An index, or a key if no float is large enough. -/
def segment : Segment :=
  (Binary64.ofDecimal t.isNegative t.magnitude 0).elim (.key t.text) .index

theorem ofText_chars : Segment.ofText t.chars = t.segment := by
  rw [segment]
  cases hnumber : Binary64.ofDecimal t.isNegative t.magnitude 0 with
  | some x => simp only [Segment.ofText, t.trim_chars, t.ofText?_chars, hnumber, Option.elim_some]
  | none =>
    have hnumeral : Binary64.ofText? (Text.trim t.chars) = none := by
      rw [t.trim_chars, t.ofText?_chars, hnumber]
    have hunquoted : ∀ ds, t.chars ≠ Text.quoted ds := by
      intro ds hds
      have hquote : '\'' ∉ t.chars := t.not_mem (by decide) (by decide)
      rw [hds] at hquote
      exact hquote List.mem_cons_self
    rw [Segment.ofText_of_not_mem hnumeral (t.not_mem (by decide) (by decide)), t.trim_chars,
      Text.unquote_of_not_quoted hunquoted, t.trim_chars]
    rfl

theorem ofText_integer : Path.ofText t.text = [t.segment] := by
  have hsolid : Text.trim t.chars ≠ [] := by
    rw [t.trim_chars]
    exact List.append_ne_nil_of_right_ne_nil _ t.ne_nil
  rw [text, Path.ofText_of_whole (Counts.calm_of_plain t.plain {}).1 hsolid, t.ofText_chars]

theorem segment_ne_root : t.segment ≠ .key rootField := by
  rw [segment]
  cases Binary64.ofDecimal t.isNegative t.magnitude 0 with
  | some x => exact nofun
  | none =>
    intro hkey
    have hroot : t.chars = rootField.toList := by
      rw [← Segment.key.inj hkey, text, String.toList_ofList]
    have hletter : 'r' ∉ t.chars := t.not_mem (by decide) (by decide)
    rw [hroot] at hletter
    exact absurd (by decide) hletter

/-! ## The element that an integer counts to -/

/-- There is no element at a position from 2⁵³ on. -/
theorem getElem?_of_large {items : List Value} (hlength : items.length < 2 ^ 53)
    {position? : Option Nat} (h : ∀ k, position? = some k → 2 ^ 53 ≤ k) :
    position?.bind (items[·]?) = none := by
  cases position? with
  | none => rfl
  | some k => exact List.getElem?_eq_none (Nat.le_trans (Nat.le_of_lt hlength) (h k rfl))

/-- A magnitude from 2⁵³ on is no smaller position, if it is one. -/
theorem le_of_toNat?_value (h : 2 ^ 53 ≤ t.magnitude) (k : Nat) (hk : t.value.toNat? = some k) :
    2 ^ 53 ≤ k := by
  rw [Int.mem_toNat?, value] at hk
  split at hk <;> omega

/-- Among fewer than 2⁵³ elements no float leads to a wrong one. -/
theorem select_segment {items : List Value} (hlength : items.length < 2 ^ 53) :
    t.segment.select (.arr items) = (t.value.toNat?.bind (items[·]?)).getD .null := by
  rw [segment]
  by_cases hsmall : t.magnitude < 2 ^ 53
  · have hexact : Binary64.ofDecimal t.isNegative t.magnitude 0 =
        some ((Binary64.natural t.magnitude hsmall).signed t.isNegative) :=
      Binary64.ofDecimal_signed t.isNegative (Binary64.ofDecimal_natural t.magnitude hsmall)
    rw [hexact, Option.elim_some, Segment.select, Value.item?, Binary64.toNat?_signed_natural]
    rfl
  · have hlarge : 2 ^ 53 ≤ t.magnitude := Nat.le_of_not_lt hsmall
    rw [getElem?_of_large hlength (t.le_of_toNat?_value hlarge)]
    cases hnumber : Binary64.ofDecimal t.isNegative t.magnitude 0 with
    | none => rfl
    | some x =>
      rw [Option.elim_some, Segment.select, Value.item?,
        getElem?_of_large hlength fun k => Binary64.le_of_toNat? hlarge hnumber]

/-- From 2¹⁰²⁴ on there is no float any more. -/
theorem segment_of_huge (h : 2 ^ 1024 ≤ t.value.natAbs) : t.segment = .key t.text := by
  have hmagnitude : t.value.natAbs = t.magnitude := by
    rw [value]
    split <;> omega
  have hnone : Binary64.ofDecimal t.isNegative t.magnitude 0 = none := by
    rw [Binary64.ofDecimal_zero_scale]
    refine Binary64.nearest_of_huge t.isNegative Nat.one_pos (Nat.le_refl 1024) ?_
    rw [Nat.mul_one, ← hmagnitude]
    exact h
  rw [segment, hnone, Option.elim_none]

end IntegerText

/-- Behind a closed path that leads to an array with elements, an integer in brackets and the same
integer behind a dot select the same: the element that it counts to from zero, or null if there is
none. It is told apart from all other integers, also where floats are not, and where it is a key. -/
theorem evaluate_integer {document : Value} {p : String} {items : List Value}
    (hclosed : (Scan.ofText p.toList).IsClosed) (hp : evaluate document p = .arr items)
    (hne : items ≠ []) (hlength : items.length < 2 ^ 53) (t : IntegerText) :
    evaluate document (p ++ "[" ++ t.text ++ "]") = evaluate document (p ++ "." ++ t.text) ∧
      (∀ (i : Nat) (h : i < items.length), t.value = i →
        evaluate document (p ++ "." ++ t.text) = items[i]) ∧
      ((∀ i : Nat, i < items.length → t.value ≠ i) →
        evaluate document (p ++ "." ++ t.text) = .null) ∧
      (2 ^ 1024 ≤ t.value.natAbs → Path.ofText t.text = [.key t.text]) := by
  have htruthy : (evaluate document p).isFalsy = false := by
    rw [hp]
    exact List.isEmpty_eq_false_iff.mpr hne
  have hroot : [t.segment].head? ≠ some (.key rootField) := by
    rw [List.head?_cons, ne_eq, Option.some.injEq]
    exact t.segment_ne_root
  have hplain : ∀ c ∈ t.text.toList, Counts.isStructural c = false := by
    rw [IntegerText.text, String.toList_ofList]
    exact t.plain
  -- either way the integer is one segment behind the path
  have hbrackets : Path.ofText (p ++ "[" ++ t.text ++ "]") = Path.ofText p ++ [t.segment] := by
    rw [Path.ofText_append_brackets hclosed hplain, t.ofText_integer]
  have hdot : Path.ofText (p ++ "." ++ t.text) = Path.ofText p ++ [t.segment] := by
    rw [Path.ofText_append_dot hclosed, t.ofText_integer]
  have hselect : evaluate document (p ++ "." ++ t.text) =
      (t.value.toNat?.bind (items[·]?)).getD .null := by
    rw [evaluate_of_append hdot htruthy hroot, Path.select_singleton, hp, t.select_segment hlength]
  refine ⟨?_, ?_, ?_, fun hhuge => ?_⟩
  · rw [evaluate_of_append hbrackets htruthy hroot, evaluate_of_append hdot htruthy hroot]
  · intro i hi hvalue
    rw [hselect, Int.mem_toNat?.mpr hvalue, Option.bind_some, List.getElem?_eq_getElem hi,
      Option.getD_some]
  · intro hnone
    rw [hselect]
    cases hi : t.value.toNat? with
    | none => rfl
    | some i =>
      have hbeyond : items.length ≤ i :=
        Nat.le_of_not_lt fun hlt => hnone i hlt (Int.mem_toNat?.mp hi)
      rw [Option.bind_some, List.getElem?_eq_none hbeyond, Option.getD_none]
  · rw [t.ofText_integer, t.segment_of_huge hhuge]

/-- Zero with a sign and a further zero; one of the two numbers that are read as 2⁵³; and a number
of four hundred digits. -/
theorem evaluate_integer_extremes :
    let items := [.bool true, .str "b"]
    let document := Value.obj [("a", .arr [.arr items])]
    let p := "root.a[0]"
    let odd : IntegerText :=
      ⟨.absent, "9007199254740993".toList, by decide, List.all_eq_true.mp (by decide)⟩
    let huge : IntegerText :=
      ⟨.absent, List.replicate 400 '7', List.cons_ne_nil _ _, fun _ hc =>
        List.eq_of_mem_replicate hc ▸ rfl⟩
    (Scan.ofText p.toList).IsClosed ∧ evaluate document p = .arr items ∧ items ≠ [] ∧
      items.length < 2 ^ 53 ∧ evaluate document "root.a[0].-00" = .bool true ∧
      evaluate document "root.a[0][+01]" = .str "b" ∧ odd.value = 2 ^ 53 + 1 ∧
      evaluate document (p ++ "." ++ odd.text) = .null ∧ 2 ^ 1024 ≤ huge.value.natAbs ∧
      Path.ofText huge.text = [.key huge.text] ∧
      evaluate document (p ++ "." ++ huge.text) = .null := by
  intro items document p odd huge
  have hclosed : (Scan.ofText p.toList).IsClosed := by decide
  have hp : evaluate document p = .arr items := by decide +kernel
  have hne : items ≠ [] := List.cons_ne_nil _ _
  have hlength : items.length < 2 ^ 53 := by decide
  have hzero := (evaluate_integer hclosed hp hne hlength
    ⟨.minus, ['0', '0'], by decide, List.all_eq_true.mp (by decide)⟩).2.1 0 (by decide) (by decide)
  obtain ⟨hsame, hone, -, -⟩ := evaluate_integer hclosed hp hne hlength
    ⟨.plus, ['0', '1'], by decide, List.all_eq_true.mp (by decide)⟩
  have hsecond := hone 1 (by decide) (by decide)
  have hodd : odd.value = 2 ^ 53 + 1 := by decide +kernel
  have hhuge : 2 ^ 1024 ≤ huge.value.natAbs := by decide +kernel
  have hbeyond : ∀ t : IntegerText, 2 ≤ t.value → ∀ i : Nat, i < items.length → t.value ≠ i := by
    intro t ht i hi
    have hi' : i < 2 := hi
    omega
  have hnone := (evaluate_integer hclosed hp hne hlength odd).2.2.1 (hbeyond odd (by omega))
  obtain ⟨-, -, hmissing, hkey⟩ := evaluate_integer hclosed hp hne hlength huge
  have hmissing' := hmissing (hbeyond huge (by decide +kernel))
  exact ⟨hclosed, hp, hne, hlength, hzero, hsame.trans hsecond, hodd, hnone, hhuge, hkey hhuge,
    hmissing'⟩

end PathQuery
