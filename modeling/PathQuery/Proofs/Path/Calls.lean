import PathQuery.Proofs.Path.Argument
import PathQuery.Proofs.Path.Spelling

/-!
# Calls behind a path

`Operator.callText` is a call as it is written, and `Segment.argsIn` are the arguments that its
inside spells: the parts between commas, cleaned, without empty ones.

* `Path.ofText_append_call`: behind a path and a dot a call is one segment more, provided that no
  parenthesis is open. Brackets may be.
* `Path.counts_append_call`: as much is open behind the call as in front of it.
* `Segment.argsIn_literalText`: a sub-path and a literal in quotes are the two arguments of a call.
-/

namespace PathQuery

open Text (splitWhen trim quoted)

namespace Text

theorem splitWhen_of_uncut {isCut : Char → Bool} {cs : List Char}
    (h : ∀ c ∈ cs, isCut c = false) : splitWhen isCut cs = [cs] := by
  induction cs with
  | nil => rfl
  | cons c cs ih =>
    rw [List.forall_mem_cons] at h
    rw [splitWhen, h.1, ih h.2]
    rfl

theorem mem_of_mem_splitWhen {isCut : Char → Bool} {cs piece : List Char} {c : Char}
    (hp : piece ∈ splitWhen isCut cs) (hc : c ∈ piece) : c ∈ cs := by
  induction cs generalizing piece with
  | nil =>
    rw [splitWhen, List.mem_singleton] at hp
    exact hp ▸ hc
  | cons d cs ih =>
    obtain ⟨first, rest, hsplit⟩ := List.exists_cons_of_ne_nil (splitWhen_ne_nil isCut cs)
    rw [splitWhen, hsplit] at hp
    rw [hsplit] at ih
    split at hp
    · rcases List.mem_cons.mp hp with rfl | hp
      · cases hc
      · exact List.mem_cons_of_mem _ (ih hp hc)
    · rcases List.mem_cons.mp hp with rfl | hp
      · rcases List.mem_cons.mp hc with rfl | hc
        · exact List.mem_cons_self
        · exact List.mem_cons_of_mem _ (ih List.mem_cons_self hc)
      · exact List.mem_cons_of_mem _ (ih (List.mem_cons_of_mem _ hp) hc)

/-- The texts between the marks, joined by the mark. -/
theorem intercalate_splitWhen (d : Char) (cs : List Char) :
    [d].intercalate (splitWhen (· = d) cs) = cs := by
  induction cs with
  | nil => rfl
  | cons c cs ih =>
    obtain ⟨piece, rest, hsplit⟩ := List.exists_cons_of_ne_nil (splitWhen_ne_nil (· = d) cs)
    rw [hsplit] at ih
    rw [splitWhen, hsplit]
    by_cases hc : c = d
    · rw [if_pos (by simpa using hc), List.intercalate_cons_cons, ih, hc]
      rfl
    · rw [if_neg (by simpa using hc), List.modifyHead_cons]
      cases rest with
      | nil =>
        rw [List.intercalate_singleton] at ih ⊢
        rw [ih]
      | cons next others =>
        rw [List.intercalate_cons_cons] at ih ⊢
        rw [List.cons_append, List.cons_append, ih]

end Text

/-! ## The text of a call -/

/-- A call as it is written, with this text between its parentheses. -/
def Operator.callText (op : Operator) (inside : String) : String := op.name ++ "(" ++ inside ++ ")"

namespace Segment

/-- No parenthesis stands in the text. -/
def Unparenthesized (inside : String) : Prop := ∀ c ∈ inside.toList, c ≠ '(' ∧ c ≠ ')'

instance (inside : String) : Decidable (Unparenthesized inside) :=
  List.decidableBAll (fun c => c ≠ '(' ∧ c ≠ ')') inside.toList

/-- The parts of the inside of a call between its commas. -/
def tokensIn (inside : String) : List (List Char) := splitWhen (· = ',') inside.toList

/-- The arguments that the inside of a call spells. -/
def argsIn (inside : String) : List String :=
  (((tokensIn inside).map cleanArg).filter (!·.isEmpty)).map String.ofList

variable {inside : String}

/-- The parts between commas hold no mark of a call, if there are no parentheses. -/
theorem isCallMark_of_mem_tokensIn (h : Unparenthesized inside) :
    ∀ token ∈ tokensIn inside, ∀ c ∈ token, isCallMark c = false := by
  intro token htoken c hc
  have hcomma : c ≠ ',' := by simpa using Text.splitWhen_uncut htoken hc
  obtain ⟨hopen, hclose⟩ := h c (Text.mem_of_mem_splitWhen htoken hc)
  simp [isCallMark, hopen, hclose, hcomma]

/-- `Operator.callText` is `Segment.callText` of the parts between commas. -/
theorem toList_callText (op : Operator) (inside : String) :
    (op.callText inside).toList = callText op (tokensIn inside) := by
  rw [callText, tokensIn, Text.intercalate_splitWhen, Operator.callText]
  simp

theorem not_comma_of_clear (h : Clear inside) : ∀ c ∈ inside.toList, decide (c = ',') = false := by
  intro c hc
  have hclear := h c hc
  simp only [isCallMark, Bool.or_eq_false_iff] at hclear
  exact hclear.2

theorem unparenthesized_of_clear (h : Clear inside) : Unparenthesized inside := by
  intro c hc
  have hclear := h c hc
  simp only [isCallMark, Bool.or_eq_false_iff, decide_eq_false_iff_not] at hclear
  exact hclear.1

/-- The first argument of a single token is the token, cleaned, also where nothing is left of it. -/
theorem headD_argsIn (h : Clear inside) : (argsIn inside).headD "" = cleaned inside := by
  have htokens : tokensIn inside = [inside.toList] :=
    Text.splitWhen_of_uncut (not_comma_of_clear h)
  rw [argsIn, htokens, List.map_singleton, cleaned]
  cases cleanArg inside.toList <;> rfl

/-! ## A sub-path and a literal in quotes -/

section

variable {s literal : String}

/-- The two of them as the inside of a call. -/
def literalText (s literal : String) : String := s ++ ",'" ++ literal ++ "'"

/-- The literal stands in quotes behind a comma. -/
theorem toList_literalText (s literal : String) :
    (literalText s literal).toList = s.toList ++ ',' :: quoted literal.toList := by
  simp [literalText, quoted]

theorem unparenthesized_literalText (hs : Clear s) (hl : Clear literal) :
    Unparenthesized (literalText s literal) := by
  rw [Unparenthesized, toList_literalText, List.forall_mem_append, List.forall_mem_cons]
  exact ⟨unparenthesized_of_clear hs, by decide,
    Spelling.forall_mem_quoted (by decide) (unparenthesized_of_clear hl)⟩

/-- Without a quote in it, a text spells the same when it is cleaned. -/
theorem ofText_cleaned_of_unquoted (hs : Clear s) (hquote : '\'' ∉ s.toList) :
    Path.ofText (cleaned s) = Path.ofText s := by
  refine (Path.ofText_cleaned_iff hs).mpr fun cs hcs => absurd ?_ hquote
  have hmem : '\'' ∈ trim s.toList := by
    rw [hcs]
    exact List.mem_cons_self
  exact Text.mem_of_mem_trim hmem

/-- The quotes keep the literal as it is, and neither of the two is dropped. -/
theorem argsIn_literalText (hs : Clear s) (hpath : Path.ofText (cleaned s) ≠ [])
    (hl : IsArgument literal) : argsIn (literalText s literal) = [cleaned s, literal] := by
  have hquoted : ∀ c ∈ quoted literal.toList, decide (c = ',') = false :=
    Spelling.forall_mem_quoted (by decide) (not_comma_of_clear hl.clear)
  have htokens : tokensIn (literalText s literal) = [s.toList, quoted literal.toList] := by
    rw [tokensIn, toList_literalText, Text.splitWhen_append (not_comma_of_clear hs) (by decide),
      Text.splitWhen_of_uncut hquoted]
  have hclean : cleanArg (quoted literal.toList) = literal.toList := by
    rw [cleanArg, Text.trim_quoted, Text.unquote_quoted, hl.trim_eq]
  have hsubpath : (!(cleanArg s.toList).isEmpty) = true := by
    rw [Bool.not_eq_true', List.isEmpty_eq_false_iff]
    intro hempty
    rw [cleaned, hempty] at hpath
    exact hpath rfl
  have hliteral : (!literal.toList.isEmpty) = true := by
    simpa [List.isEmpty_iff] using hl.ne_empty
  rw [argsIn, htokens, List.map_cons, List.map_singleton, hclean, List.filter_cons,
    if_pos hsubpath, List.filter_cons, if_pos hliteral, List.filter_nil, List.map_cons,
    List.map_singleton, String.ofList_toList, cleaned]

end

end Segment

/-! ## Behind a path -/

namespace Path

variable {p inside : String}

theorem toList_append_call (p : String) (op : Operator) (inside : String) :
    (p ++ "." ++ op.callText inside).toList =
      p.toList ++ '.' :: Segment.callText op (Segment.tokensIn inside) := by
  rw [← Segment.toList_callText]
  simp

/-- A call behind a dot is the last segment of the path. -/
theorem ofText_append_call (hp : (Scan.ofText p.toList).mute = 0) (op : Operator)
    (h : Segment.Unparenthesized inside) :
    ofText (p ++ "." ++ op.callText inside) =
      ofText p ++ [.call op (Segment.argsIn inside)] := by
  have htokens := Segment.isCallMark_of_mem_tokensIn h
  have hmute : (({} : Counts).run p.toList).mute = 0 := by
    rw [← Scan.counts_ofText]
    exact hp
  have hsolid : Text.solid [Segment.callText op (Segment.tokensIn inside)] =
      [Segment.callText op (Segment.tokensIn inside)] := by
    rw [Text.solid_cons, Segment.trim_callText, if_neg (by simp [Segment.callText]), Text.solid_nil]
  have hpieces : pathPieces (p ++ "." ++ op.callText inside).toList =
      pathPieces p.toList ++ [Segment.callText op (Segment.tokensIn inside)] := by
    rw [toList_append_call, pathPieces_eq_solid, Counts.split_append_dot hmute,
      (Segment.calm_callText op htokens _).1, Text.solid_append, hsolid, ← pathPieces_eq_solid]
  rw [ofText, hpieces, List.map_append, List.map_singleton, Segment.ofText_callText op htokens]
  rfl

/-- As much is open behind a call as in front of it. -/
theorem counts_append_call (p : String) (op : Operator) (h : Segment.Unparenthesized inside) :
    (Scan.ofText (p ++ "." ++ op.callText inside).toList).counts =
      (Scan.ofText p.toList).counts := by
  have htokens := Segment.isCallMark_of_mem_tokensIn h
  rw [toList_append_call, Scan.counts_ofText, Scan.counts_ofText, Counts.run_append,
    Counts.run_cons, Counts.step_dot, (Segment.calm_callText op htokens _).2]

/-- A call behind a call behind a path. -/
theorem ofText_append_calls {p x y : String} (hp : (Scan.ofText p.toList).mute = 0)
    (op op' : Operator) (hx : Segment.Unparenthesized x) (hy : Segment.Unparenthesized y) :
    ofText (p ++ "." ++ op.callText x ++ "." ++ op'.callText y) =
      ofText p ++ [.call op (Segment.argsIn x), .call op' (Segment.argsIn y)] := by
  have hmute : (Scan.ofText (p ++ "." ++ op.callText x).toList).mute = 0 := by
    have hcounts := congrArg Counts.mute (counts_append_call p op hx)
    exact hcounts.trans hp
  rw [ofText_append_call hmute op' hy, ofText_append_call hp op hx, List.append_assoc]
  rfl

theorem isClosed_append_call (hp : (Scan.ofText p.toList).IsClosed) (op : Operator)
    (h : Segment.Unparenthesized inside) :
    (Scan.ofText (p ++ "." ++ op.callText inside).toList).IsClosed := by
  rw [Scan.isClosed_iff, ← Scan.counts_ofText, counts_append_call p op h, Scan.counts_ofText,
    ← Scan.isClosed_iff]
  exact hp

/-- A call of a sub-path and a literal behind a path. -/
theorem ofText_append_literal {s literal : String} (hp : (Scan.ofText p.toList).mute = 0)
    (op : Operator) (hs : Segment.Clear s) (hquote : '\'' ∉ s.toList) (hpath : ofText s ≠ [])
    (hl : Segment.IsArgument literal) :
    ofText (p ++ "." ++ op.callText (Segment.literalText s literal)) =
      ofText p ++ [.call op [Segment.cleaned s, literal]] := by
  have hcleaned : ofText (Segment.cleaned s) ≠ [] := by
    rw [Segment.ofText_cleaned_of_unquoted hs hquote]
    exact hpath
  rw [ofText_append_call hp op (Segment.unparenthesized_literalText hs hl.clear),
    Segment.argsIn_literalText hs hcleaned hl]

end Path

end PathQuery
