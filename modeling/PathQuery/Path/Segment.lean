import PathQuery.Number.Decimal
import PathQuery.Path.Scan

/-!
# Segments of a path

`Segment.ofText` classifies a piece of a path text. A finite numeral is an index; a text that ends
with a parenthesis and starts with the name of an operator and a parenthesis is a call; anything
else is a key. Classifying never fails.

A call is split at parentheses and commas alike (`callArgs`), so an argument holds none of them
(`args_clear`), and the path it spells has no calls (`Path.ofText_noCall`).
-/

namespace PathQuery

/-- What a path can do with an array besides indexing it. -/
inductive Operator where
  /-- `find(subpath, literal)`: the first element whose sub-path renders as the literal. -/
  | find
  /-- `filter(subpath, literal)`: all such elements. -/
  | filter
  /-- `map(subpath)`: what the sub-path selects from each element. -/
  | map
  /-- `flat()`: the elements, with those that are arrays spliced in. -/
  | flat
deriving DecidableEq

namespace Operator

/-- The operators, in the order in which their names are tried. -/
def all : List Operator := [find, filter, map, flat]

/-- The name by which a path calls the operator. -/
def name : Operator → String
  | find => "find"
  | filter => "filter"
  | map => "map"
  | flat => "flat"

/-- The operator with this name. -/
def ofName? (name : String) : Option Operator := all.find? (·.name == name)

theorem ofName?_name (op : Operator) : ofName? op.name = some op := by
  cases op <;> decide

end Operator

/-- One step of a path. -/
inductive Segment where
  | index (position : Binary64)
  | key (name : String)
  | call (op : Operator) (args : List String)
deriving DecidableEq

/-- A path, ready to be followed. -/
abbrev Path := List Segment

namespace Text

/-- The text without the one pair of single quotes around it, if there is one. -/
def unquote : List Char → List Char
  | '\'' :: rest => if rest.getLast? = some '\'' then rest.dropLast else '\'' :: rest
  | cs => cs

theorem mem_of_mem_unquote {c : Char} {cs : List Char} (h : c ∈ unquote cs) : c ∈ cs := by
  unfold unquote at h
  split at h
  · split at h
    · exact List.mem_cons_of_mem _ ((List.dropLast_sublist _).mem h)
    · exact h
  · exact h

end Text

namespace Segment

/-- The characters at which a call is split. -/
def isCallMark (c : Char) : Bool := c = '(' || c = ')' || c = ','

/-- An argument without the blanks and the quotes around it, nor the blanks inside the quotes. -/
def cleanArg (cs : List Char) : List Char := Text.trim (Text.unquote (Text.trim cs))

/-- The arguments of a call: what is left of its tokens without empty ones, the first of them being
the name of the operator. -/
def callArgs (cs : List Char) : List String :=
  ((((Text.splitWhen isCallMark cs).map cleanArg).filter (!·.isEmpty)).drop 1).map String.ofList

/-- The operator named in front of the first parenthesis. -/
def calledOperator? (cs : List Char) : Option Operator :=
  if cs.contains '(' then Operator.ofName? (String.ofList (cs.takeWhile (· ≠ '('))) else none

/-- The segment that a piece of a path text is. -/
def ofText (piece : List Char) : Segment :=
  let cs := Text.trim piece
  match Binary64.ofText? cs with
  | some x => index x
  | none =>
    match if cs.getLast? = some ')' then calledOperator? cs else none with
    | some op => call op (callArgs cs)
    | none => key (String.ofList (Text.trim (Text.unquote cs)))

/-- No character of the text splits a call. -/
def Clear (s : String) : Prop := ∀ c ∈ s.toList, isCallMark c = false

/-- The tokens of a call hold no mark at which a call is split. -/
theorem clear_of_mem_callArgs {cs : List Char} {arg : String} (h : arg ∈ callArgs cs) :
    Clear arg := by
  simp only [callArgs, List.mem_map] at h
  obtain ⟨piece, hp, rfl⟩ := h
  have hmem := (List.mem_filter.mp (List.mem_of_mem_drop hp)).1
  obtain ⟨token, htoken, rfl⟩ := List.mem_map.mp hmem
  intro c hc
  rw [String.toList_ofList] at hc
  exact Text.splitWhen_uncut htoken
    (Text.mem_of_mem_trim (Text.mem_of_mem_unquote (Text.mem_of_mem_trim hc)))

/-- The arguments of a classified call are those that its text is split into. -/
theorem args_eq_callArgs {piece : List Char} {op : Operator} {args : List String}
    (h : ofText piece = call op args) : args = callArgs (Text.trim piece) := by
  simp only [ofText] at h
  split at h
  · cases h
  · split at h
    · cases h
      rfl
    · cases h

/-- The arguments of a classified call hold no parenthesis and no comma. -/
theorem args_clear {piece : List Char} {op : Operator} {args : List String}
    (h : ofText piece = call op args) : ∀ arg ∈ args, Clear arg := by
  rw [args_eq_callArgs h]
  exact fun _ => clear_of_mem_callArgs

/-- Only a piece with a parenthesis is a call. -/
theorem mem_of_ofText_call {piece : List Char} {op : Operator} {args : List String}
    (h : ofText piece = call op args) : '(' ∈ piece := by
  simp only [ofText] at h
  split at h
  · cases h
  · split at h
    · rename_i hop
      split at hop
      · unfold calledOperator? at hop
        split at hop
        · rename_i hmem
          exact Text.mem_of_mem_trim (by simpa using hmem)
        · cases hop
      · cases hop
    · cases h

end Segment

namespace Path

/-- The path that a text spells. Every text spells one. -/
def ofText (text : String) : Path := (pathPieces text.toList).map Segment.ofText

/-- The arguments of all calls of a path are clear. -/
theorem args_clear {text : String} {op : Operator} {args : List String}
    (h : Segment.call op args ∈ ofText text) : ∀ arg ∈ args, Segment.Clear arg := by
  obtain ⟨piece, -, hpiece⟩ := List.mem_map.mp h
  exact Segment.args_clear hpiece

/-- Only a path text with a parenthesis has a call. -/
theorem mem_of_call {text : String} {op : Operator} {args : List String}
    (h : Segment.call op args ∈ ofText text) : '(' ∈ text.toList := by
  obtain ⟨piece, hp, hpiece⟩ := List.mem_map.mp h
  exact mem_of_mem_pathPieces hp (Segment.mem_of_ofText_call hpiece)

/-- A text that could be an argument spells a path without calls. -/
theorem ofText_noCall {text : String} (h : Segment.Clear text) (op : Operator)
    (args : List String) : Segment.call op args ∉ ofText text := by
  intro hmem
  have := h _ (mem_of_call hmem)
  simp [Segment.isCallMark] at this

end Path

end PathQuery
