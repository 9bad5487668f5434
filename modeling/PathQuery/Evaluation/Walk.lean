import PathQuery.Evaluation.Trace
import PathQuery.Json.Value
import PathQuery.Json.Writer

/-!
# Evaluating a path

`Path.walk` takes the segments of a path one after the other and ends with the first falsy value.

* `Focus` is the value a walk has come to, shared with the document or built by an operator.
  `value_key` and `value_index` show that both kinds are looked up alike.
* `Value.render` is the text that `find` and `filter` compare with a literal. `5.0` renders as `5`,
  an array as its elements with commas between them, and an object as its JSON text.
* `Path.fromRoot` drops a leading `root`, and `Path.evaluateWith` walks the segments that are left.
* `Operator.apply` evaluates a sub-path on the elements of an array. Evaluation and application call
  each other, which terminates by `nesting_lt_of_mem`: an argument of a parsed path spells a path
  without calls (`Path.ofText_noCall`). `Operator.apply_arr` is the equation without the termination
  argument.
-/

namespace PathQuery

/-! ## The value in focus -/

/-- The value that a walk has come to. -/
inductive Focus where
  /-- A part of the document. -/
  | shared (v : Value)
  /-- A value of the walk's own. -/
  | built (v : Value)

namespace Focus

/-- The value itself, however it is held. -/
def value : Focus → Value
  | shared v => v
  | built v => v

/-- What a lookup leaves where there is nothing to be found. -/
def missing : Focus := built .null

/-- Goes on to a field. -/
def key (name : String) : Focus → Focus
  | shared v => (v.field? name).elim missing shared
  | built (.obj fields) => (Fields.take? name fields).elim missing fun taken => built taken.1
  | built _ => missing

/-- Goes on to an element. -/
def index (position : Binary64) : Focus → Focus
  | shared v => (v.item? position).elim missing shared
  | built (.arr items) =>
    (position.toNat?.bind fun i => (items.drop i).head?).elim missing built
  | built _ => missing

/-- Both kinds of focus find the same field, null where there is none. -/
theorem value_key (name : String) (focus : Focus) :
    (focus.key name).value = (focus.value.field? name).getD .null := by
  cases focus with
  | shared v =>
    rw [key]
    cases hv : v.field? name <;> simp [value, missing, hv]
  | built v =>
    cases v with
    | obj fields =>
      have htake := Fields.take?_map_fst name fields
      rw [key, value, Value.field?, ← htake]
      cases Fields.take? name fields <;> rfl
    | _ => rfl

/-- Both kinds of focus find the same element, null where there is none. -/
theorem value_index (position : Binary64) (focus : Focus) :
    (focus.index position).value = (focus.value.item? position).getD .null := by
  cases focus with
  | shared v =>
    rw [index]
    cases hv : v.item? position <;> simp [value, missing, hv]
  | built v =>
    cases v with
    | arr items =>
      rw [index, value, Value.item?]
      simp only [List.head?_drop]
      cases position.toNat?.bind fun i => items[i]? <;> rfl
    | _ => rfl

end Focus

/-! ## Rendering -/

/-- Below this magnitude a whole float renders as an integer. -/
def Number.integerBelow : Nat := 10 ^ 15

/-- An integer in decimal. A float that is a moderate whole number looks the same, without a sign on
zero; any other float is written out without an exponent. -/
def Number.render : Number → List Char
  | .int i _ => integerText i
  | .float x =>
    if x.isWhole && x.wholePart < integerBelow then
      integerText (if x.negative then -(x.wholePart : Int) else x.wholePart)
    else FloatLayout.rendered.text x

namespace Value

mutual
/-- The text that a literal is compared with. -/
def render : Value → List Char
  | null => []
  | bool true => ['t', 'r', 'u', 'e']
  | bool false => ['f', 'a', 'l', 's', 'e']
  | num n => n.render
  | str s => s.toList
  | arr [] => []
  | arr (v :: rest) => render v ++ renderItems rest
  | obj fields => write .compact 0 (obj fields)

/-- The elements after the first one, each behind its comma. -/
def renderItems : List Value → List Char
  | [] => []
  | v :: rest => ',' :: (render v ++ renderItems rest)
end

end Value

/-- The name by which a path may refer to the document itself. -/
def rootField : String := "root"

/-! ## Walking -/

namespace Path

/-- What each call of a path does to a value. -/
abbrev Calls (path : Path) :=
  (op : Operator) → (args : List String) → Segment.call op args ∈ path → Value → Traced Value

/-- Walks along the segments. The segment that leaves a falsy value is noted and is the last one. -/
def walk : (path : Path) → Calls path → Focus → Traced Focus
  | [], _, focus => pure focus
  | segment :: rest, calls, focus => do
    let next ← match segment, calls with
      | .key name, _ => pure (focus.key name)
      | .index position, _ => pure (focus.index position)
      | .call op args, calls =>
        Focus.built <$> calls op args List.mem_cons_self focus.value
    if next.value.isFalsy then
      Traced.note (.stopped segment)
      return next
    else walk rest (fun op args h => calls op args (List.mem_cons_of_mem _ h)) next

/-- The segments that are left once a leading `root` has been taken for the document itself. It is
not where the document has a field of that name, unless the path names that field next. -/
def fromRoot (path : Path) (document : Value) : Path :=
  match path with
  | .key name :: rest =>
    if name = rootField ∧
        ((document.field? rootField).isNone ∨ rest.head? = some (.key rootField)) then rest
    else path
  | _ => path

theorem mem_of_mem_fromRoot {path : Path} {document : Value} {segment : Segment}
    (h : segment ∈ path.fromRoot document) : segment ∈ path := by
  unfold fromRoot at h
  split at h
  · split at h
    · exact List.mem_cons_of_mem _ h
    · exact h
  · exact h

/-- What the path selects from the document; null for a path without segments. -/
def evaluateWith (path : Path) (calls : Calls path) (document : Value) : Traced Value :=
  if path.isEmpty then pure .null
  else
    Focus.value <$> walk (path.fromRoot document)
      (fun op args h => calls op args (mem_of_mem_fromRoot h)) (.shared document)

end Path

/-! ## Operators -/

/-- Whether what the sub-path selects from the element renders as the literal, blanks around it
aside. Without a literal nothing matches, and nothing is evaluated. -/
def matchesLiteral (select : Value → Traced Value) (literal? : Option String) (item : Value) :
    Traced Bool :=
  match literal? with
  | none => pure false
  | some literal => (fun v => String.ofList (Text.trim v.render) = literal) <$> select item

/-- What an element contributes to a flattened array. -/
def Value.spliced : Value → List Value
  | .arr items => items
  | v => [v]

namespace Operator

/-- What the operator makes of the elements, `select` being its sub-path. -/
def run (op : Operator) (select : Value → Traced Value) (literal? : Option String)
    (items : List Value) : Traced Value :=
  match op with
  | find => (·.getD .null) <$> Traced.first? (matchesLiteral select literal?) items
  | filter => .arr <$> Traced.keep (matchesLiteral select literal?) items
  | map => .arr <$> Traced.collect select items
  | flat => pure (.arr (items.flatMap Value.spliced))

/-- The sub-path of a call. A missing one selects nothing. -/
def subpath (args : List String) : String := args.headD ""

/-- How many operators may still be called from a sub-path: none where it has no parenthesis. -/
def nesting (args : List String) : Nat := if '(' ∈ (subpath args).toList then 1 else 0

/-- A call in the sub-path of a call has a sub-path without parentheses. -/
theorem nesting_lt_of_mem {args args' : List String} {op : Operator}
    (h : Segment.call op args' ∈ Path.ofText (subpath args)) : nesting args' < nesting args := by
  have hclear : '(' ∉ (subpath args').toList := by
    cases args' with
    | nil => simp [subpath]
    | cons arg rest =>
      intro hmem
      have := Path.args_clear h arg List.mem_cons_self '(' hmem
      simp [Segment.isCallMark] at this
  rw [nesting, nesting, if_neg hclear, if_pos (Path.mem_of_call h)]
  exact Nat.zero_lt_one

/-- Applies the operator to a value. Anything but an array gives null. -/
def apply (op : Operator) (args : List String) (v : Value) : Traced Value :=
  match v with
  | .arr items => do
    Traced.note (.parsed (subpath args) (Path.ofText (subpath args)).length)
    op.run
      (fun item =>
        (Path.ofText (subpath args)).evaluateWith (fun op' args' _ w => apply op' args' w) item)
      args[1]? items
  | _ => do
    Traced.note (.notArray op)
    return .null
termination_by nesting args
decreasing_by exact nesting_lt_of_mem ‹_›

end Operator

/-! ## Paths -/

namespace Path

/-- What the path selects from the document. -/
def evaluate (path : Path) (document : Value) : Traced Value :=
  path.evaluateWith (fun op args _ v => op.apply args v) document

/-- Takes a path text apart, and notes it. -/
def parse (text : String) : Traced Path := do
  Traced.note (.parsed text (ofText text).length)
  return ofText text

end Path

/-- On an array an operator parses its sub-path once, and evaluates it on the elements. -/
theorem Operator.apply_arr (op : Operator) (args : List String) (items : List Value) :
    op.apply args (.arr items) =
      Path.parse (subpath args) >>= fun path => op.run path.evaluate args[1]? items := by
  rw [Operator.apply]
  rfl

/-- On any other value an operator notes the fact and gives null. -/
theorem Operator.apply_of_not_arr (op : Operator) (args : List String) {v : Value}
    (h : ∀ items, v ≠ .arr items) :
    op.apply args v = Traced.note (.notArray op) >>= fun _ => pure .null := by
  rw [Operator.apply]
  exact h

/-- Follows a path text from the document. -/
def Value.follow (document : Value) (text : String) : Traced Value := do
  let path ← Path.parse text
  path.evaluate document

/-- What a path text selects from the document. -/
def evaluate (document : Value) (text : String) : Value := (document.follow text).value

end PathQuery
