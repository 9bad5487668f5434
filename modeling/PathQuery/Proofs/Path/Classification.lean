import PathQuery.Proofs.Number.Exact
import PathQuery.Proofs.Path.Splitting
import PathQuery.Proofs.Text.Padding

/-!
# How a piece is classified

One law for each kind of segment, in terms of how it is written.

* `ofText_quoted`: a piece in quotes is a key. Neither a numeral nor a call starts with a quote.
* `ofText_toDigits`: digits are an index.
* `ofText_callText`: the name of an operator with tokens in parentheses is a call of what is left of
  the tokens when they are cleaned. It is `Calm` (`calm_callText`).
-/

namespace PathQuery

namespace Counts

/-! ## Characters that a scan passes over -/

theorem isStructural_of_isBlank {c : Char} (h : Text.isBlank c = true) :
    isStructural c = false := by
  have hmarks : ['.', '[', ']', '(', ')'].all (!Text.isBlank ·) = true := by decide
  simpa [isStructural, and_assoc] using Text.not_mem_of_all hmarks h

theorem isStructural_of_isDigit {c : Char} (h : c.isDigit = true) : isStructural c = false := by
  have hmarks : ['.', '[', ']', '(', ')'].all (!Char.isDigit ·) = true := by decide
  simpa [isStructural, and_assoc] using Text.not_mem_of_all hmarks h

theorem calm_blanks (bs : Text.Blanks) (k : Counts) : k.Calm bs.1 :=
  calm_of_plain (fun c hc => isStructural_of_isBlank (bs.2 c hc)) k

end Counts

namespace Segment

open Text

/-- Blanks around a piece do not matter. -/
theorem ofText_trim (cs : List Char) : ofText (trim cs) = ofText cs := by
  simp only [ofText, trim_trim]

/-! ## Keys and indices -/

/-- A piece in quotes is a key. -/
theorem ofText_quoted (cs : List Char) : ofText (quoted cs) = key (String.ofList (trim cs)) := by
  have hnumeral : Binary64.ofText? (quoted cs) = none :=
    Binary64.ofText?_eq_none (by decide) (by decide) _
  simp [ofText, hnumeral]

theorem isBlank_of_isDigit {c : Char} (h : c.isDigit = true) : isBlank c = false := by
  rw [Char.isDigit_iff_toNat] at h
  obtain ⟨hlow, hhigh⟩ : 48 ≤ c.toNat ∧ c.toNat ≤ 57 := h
  simp only [isBlank, Bool.or_eq_false_iff, Bool.and_eq_false_iff, decide_eq_false_iff_not,
    beq_eq_false_iff_ne]
  omega

/-- The decimal of a number below 2⁵³ is an index. -/
theorem ofText_toDigits (n : Nat) (h : n < 2 ^ 53) :
    ofText (Nat.toDigits 10 n) = index (Binary64.natural n h) := by
  have htrim : trim (Nat.toDigits 10 n) = Nat.toDigits 10 n := trim_of_forall fun c hc =>
    isBlank_of_isDigit (isDigit_of_mem_toDigits c hc)
  simp only [ofText, htrim, Binary64.ofText?_toDigits n h]

/-! ## Calls -/

/-- A call with these tokens between its parentheses. -/
def callText (op : Operator) (tokens : List (List Char)) : List Char :=
  op.name.toList ++ '(' :: ([','].intercalate tokens ++ [')'])

/-- The name of an operator starts with a letter. -/
theorem name_eq_cons (op : Operator) : ∃ c rest, op.name.toList = c :: rest ∧
    c.isDigit = false ∧ (c ≠ '+' ∧ c ≠ '-' ∧ c ≠ '.') ∧ isBlank c = false := by
  cases op
  · exact ⟨'f', ['i', 'n', 'd'], by decide, by decide, by decide, by decide⟩
  · exact ⟨'f', ['i', 'l', 't', 'e', 'r'], by decide, by decide, by decide, by decide⟩
  · exact ⟨'m', ['a', 'p'], by decide, by decide, by decide, by decide⟩
  · exact ⟨'f', ['l', 'a', 't'], by decide, by decide, by decide, by decide⟩

instance (s : String) : Decidable (Clear s) :=
  decidable_of_iff (s.toList.all (!isCallMark ·) = true) (by simp [Clear])

theorem clear_name (op : Operator) : Clear op.name := by
  cases op <;> decide

theorem cleanArg_name (op : Operator) : cleanArg op.name.toList = op.name.toList := by
  cases op <;> decide

theorem getLast?_callText (op : Operator) (tokens : List (List Char)) :
    (callText op tokens).getLast? = some ')' := by
  rw [callText, ← List.cons_append, ← List.append_assoc, List.getLast?_concat]

theorem trim_callText (op : Operator) (tokens : List (List Char)) :
    trim (callText op tokens) = callText op tokens := by
  obtain ⟨c, rest, hname, -, -, hblank⟩ := name_eq_cons op
  apply trim_eq_self
  constructor
  · intro d hd
    rw [callText, hname] at hd
    cases hd
    exact hblank
  · intro d hd
    rw [getLast?_callText] at hd
    cases hd
    decide

/-- A call names its operator. -/
theorem calledOperator?_callText (op : Operator) (tokens : List (List Char)) :
    calledOperator? (callText op tokens) = some op := by
  have hmem : (callText op tokens).contains '(' = true := by simp [callText]
  have hname : (callText op tokens).takeWhile (· ≠ '(') = op.name.toList := by
    rw [callText, List.takeWhile_append_of_pos]
    · simp
    · intro c hc
      have hclear := clear_name op c hc
      rw [isCallMark, Bool.or_eq_false_iff, Bool.or_eq_false_iff] at hclear
      simpa using hclear.1.1
  rw [calledOperator?, if_pos hmem, hname, String.ofList_toList, Operator.ofName?_name]

/-- Tokens joined by commas, with a parenthesis behind them, come apart again. -/
theorem splitWhen_intercalate {tokens : List (List Char)} (hne : tokens ≠ [])
    (h : ∀ token ∈ tokens, ∀ c ∈ token, isCallMark c = false) :
    splitWhen isCallMark ([','].intercalate tokens ++ [')']) = tokens ++ [[]] := by
  induction tokens with
  | nil => exact absurd rfl hne
  | cons token rest ih =>
    rw [List.forall_mem_cons] at h
    cases rest with
    | nil =>
      rw [List.intercalate_singleton, splitWhen_append h.1 (by decide)]
      rfl
    | cons token' rest' =>
      rw [List.intercalate_cons_cons, List.append_assoc, List.append_assoc,
        List.singleton_append, splitWhen_append h.1 (by decide), ih (List.cons_ne_nil _ _) h.2,
        ← List.cons_append]

/-- The arguments of a call are its tokens, cleaned, without empty ones. -/
theorem callArgs_callText (op : Operator) {tokens : List (List Char)}
    (h : ∀ token ∈ tokens, ∀ c ∈ token, isCallMark c = false) :
    callArgs (callText op tokens) =
      ((tokens.map cleanArg).filter (!·.isEmpty)).map String.ofList := by
  -- the name is the one token that stands in front, the empty one behind the parenthesis is dropped
  have hhead : (!op.name.toList.isEmpty) = true := by cases op <;> decide
  have hempty : (!(cleanArg []).isEmpty) = false := rfl
  rw [callArgs, callText, splitWhen_append (clear_name op) (by decide), List.map_cons,
    cleanArg_name, List.filter_cons, if_pos hhead, List.drop_one, List.tail_cons]
  cases tokens with
  | nil => rfl
  | cons token rest =>
    rw [splitWhen_intercalate (List.cons_ne_nil _ _) h, List.map_append, List.filter_append,
      List.map_singleton, List.filter_cons, if_neg (by rw [hempty]; exact Bool.false_ne_true),
      List.filter_nil, List.append_nil]

/-- A call is classified as a call with these arguments. -/
theorem ofText_callText (op : Operator) {tokens : List (List Char)}
    (h : ∀ token ∈ tokens, ∀ c ∈ token, isCallMark c = false) :
    ofText (callText op tokens) =
      call op (((tokens.map cleanArg).filter (!·.isEmpty)).map String.ofList) := by
  have hnumeral : Binary64.ofText? (callText op tokens) = none := by
    obtain ⟨c, rest, hname, hdigit, hsign, -⟩ := name_eq_cons op
    rw [callText, hname]
    exact Binary64.ofText?_eq_none hdigit hsign _
  simp only [ofText, trim_callText, hnumeral, getLast?_callText, if_true,
    calledOperator?_callText, callArgs_callText op h]

/-- No cut falls into a call, whatever its tokens hold. -/
theorem calm_callText (op : Operator) {tokens : List (List Char)}
    (h : ∀ token ∈ tokens, ∀ c ∈ token, isCallMark c = false) (k : Counts) :
    k.Calm (callText op tokens) := by
  have hplain : op.name.toList.all (!Counts.isStructural ·) = true := by cases op <;> decide
  have hname : k.Calm op.name.toList := Counts.calm_of_plain (by simpa using hplain) k
  have htokens : ∀ c ∈ [','].intercalate tokens, c ≠ '(' ∧ c ≠ ')' := by
    refine forall_mem_intercalate (P := fun c => c ≠ '(' ∧ c ≠ ')') (by simp) ?_
    intro token htoken c hc
    have hclear := h token htoken c hc
    simp only [isCallMark, Bool.or_eq_false_iff, decide_eq_false_iff_not] at hclear
    exact hclear.1
  exact hname.append (Counts.calm_parenthesized htokens k)

end Segment

end PathQuery
