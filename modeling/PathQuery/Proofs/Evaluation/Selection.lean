import PathQuery.Evaluation.Walk

/-!
# What a path selects

`Path.select` is the walk on plain values, without trace and without the way a value is held.

* `Path.value_evaluate`: the value of an evaluation is what `select` gives from `fromRoot`.
* `Path.select_append`: one path behind another goes on where the first one ended, unless that was
  at a falsy value.
* `Operator.value_find`, `value_filter`, `value_map` and `value_flat` are the equations of the
  operators on lists, in terms of `Operator.selects`.
-/

namespace PathQuery

/-- What a single segment selects from a value. -/
def Segment.select : Segment → Value → Value
  | key name, v => (v.field? name).getD .null
  | index position, v => (v.item? position).getD .null
  | call op args, v => (op.apply args v).value

namespace Path

/-- What a walk along the segments selects. The first falsy value is the last one. -/
def select : Path → Value → Value
  | [], v => v
  | segment :: rest, v =>
    if (segment.select v).isFalsy then segment.select v else select rest (segment.select v)

@[simp] theorem select_nil (v : Value) : select [] v = v := rfl

/-- A walk ends at a falsy value, and otherwise goes on along the rest. -/
theorem select_cons (segment : Segment) (rest : Path) (v : Value) :
    select (segment :: rest) v =
      if (segment.select v).isFalsy then segment.select v else rest.select (segment.select v) := rfl

@[simp] theorem select_singleton (segment : Segment) (v : Value) :
    select [segment] v = segment.select v := by
  rw [select_cons, select_nil, ite_self]

/-! ## Evaluating is selecting -/

/-- What comes after a step: the walk ends with the value, or goes on from it. -/
theorem value_rest {rest : Path} {calls : rest.Calls} {segment : Segment} {v : Value}
    (hrest : ∀ next : Focus, (walk rest calls next).value.value = rest.select next.value)
    (next : Focus) (hnext : next.value = segment.select v) :
    (if next.value.isFalsy then do
        Traced.note (.stopped segment)
        return next
      else walk rest calls next : Traced Focus).value.value = select (segment :: rest) v := by
  rw [select_cons, ← hnext]
  split
  · rfl
  · exact hrest next

/-- The value of a walk does not depend on how the value in focus is held. -/
theorem value_walk {path : Path} {calls : path.Calls}
    (hcalls : ∀ op args h v, (calls op args h v).value = (op.apply args v).value) (focus : Focus) :
    (path.walk calls focus).value.value = path.select focus.value := by
  induction path generalizing focus with
  | nil => rfl
  | cons segment rest ih =>
    -- the calls of the rest are those of the whole path
    have hrest : ∀ next : Focus,
        (walk rest (fun op args h => calls op args (List.mem_cons_of_mem _ h)) next).value.value =
          select rest next.value :=
      ih fun op args h => hcalls op args (List.mem_cons_of_mem _ h)
    cases segment with
    | index position =>
      simp only [walk, Traced.value_bind, Traced.value_pure]
      exact value_rest hrest _ (Focus.value_index position focus)
    | key name =>
      simp only [walk, Traced.value_bind, Traced.value_pure]
      exact value_rest hrest _ (Focus.value_key name focus)
    | call op args =>
      simp only [walk, Traced.value_bind, Traced.value_map]
      exact value_rest hrest (.built _) (hcalls op args List.mem_cons_self focus.value)

/-- Evaluating a path selects from the document, once a leading `root` is seen to. -/
theorem value_evaluate (path : Path) (document : Value) :
    (path.evaluate document).value =
      if path = [] then .null else (path.fromRoot document).select document := by
  cases path with
  | nil => rfl
  | cons segment rest =>
    rw [if_neg (List.cons_ne_nil segment rest)]
    exact value_walk (fun _ _ _ _ => rfl) (.shared document)

/-! ## Walks that go on -/

/-- Where a first walk ends at a truthy value, a second one goes on. A first walk without segments
ends where it began, which the early exit never looks at. -/
theorem select_append {p : Path} {v : Value} (h : p ≠ [] ∨ v.isFalsy = false) (q : Path) :
    (p ++ q).select v = if (p.select v).isFalsy then p.select v else q.select (p.select v) := by
  induction p generalizing v with
  | nil =>
    have hv : v.isFalsy = false := h.resolve_left (fun hne => hne rfl)
    simp [hv]
  | cons segment rest ih =>
    rw [List.cons_append, select_cons, select_cons]
    by_cases hnext : (segment.select v).isFalsy = true
    · simp only [hnext, if_true]
    · simp only [hnext]
      exact ih (.inr (by simpa using hnext))

@[simp] theorem value_parse (text : String) : (parse text).value = ofText text := by
  rw [parse, Traced.value_bind, Traced.value_pure]

/-- Only a leading `root` is ever taken for the document. -/
theorem fromRoot_of_head? {path : Path} (h : path.head? ≠ some (.key rootField)) (v : Value) :
    path.fromRoot v = path := by
  unfold fromRoot
  split
  · rename_i name rest
    rw [if_neg]
    rintro ⟨rfl, -⟩
    exact h rfl
  · rfl

end Path

/-- `evaluate` parses the text and evaluates the path. -/
theorem evaluate_eq (document : Value) (text : String) :
    PathQuery.evaluate document text = ((Path.ofText text).evaluate document).value := by
  rw [PathQuery.evaluate, Value.follow, Traced.value_bind, Path.value_parse]

/-! ## Values that are not arrays -/

theorem Value.item?_of_not_arr {v : Value} (h : ∀ items, v ≠ .arr items) (position : Binary64) :
    v.item? position = none := by
  unfold Value.item?
  split
  · rename_i items
    exact absurd rfl (h items)
  · rfl

theorem Value.spliced_of_not_arr {v : Value} (h : ∀ items, v ≠ .arr items) : v.spliced = [v] := by
  unfold Value.spliced
  split
  · rename_i items
    exact absurd rfl (h items)
  · rfl

/-! ## Operators -/

namespace Operator

/-- Whether `find` and `filter`, called with these arguments, select the element. -/
def selects (args : List String) (item : Value) : Bool :=
  (matchesLiteral (Path.ofText (subpath args)).evaluate args[1]? item).value

variable (args : List String) (items : List Value)

theorem value_find :
    (find.apply args (.arr items)).value = (items.find? (selects args)).getD .null := by
  rw [apply_arr, Traced.value_bind, Path.value_parse, run, Traced.value_map, Traced.value_first?]
  rfl

theorem value_filter :
    (filter.apply args (.arr items)).value = .arr (items.filter (selects args)) := by
  rw [apply_arr, Traced.value_bind, Path.value_parse, run, Traced.value_map, Traced.value_keep]
  rfl

theorem value_map :
    (map.apply args (.arr items)).value = .arr (items.map fun item =>
      ((Path.ofText (subpath args)).evaluate item).value) := by
  rw [apply_arr, Traced.value_bind, Path.value_parse, run, Traced.value_map, Traced.value_collect]

theorem value_flat :
    (flat.apply args (.arr items)).value = .arr (items.flatMap Value.spliced) := by
  rw [apply_arr, Traced.value_bind, run, Traced.value_pure]

variable {args items} in
/-- An element is selected by its literal and by what the sub-path leads to. -/
theorem selects_congr {args' : List String} {item : Value} (hliteral : args[1]? = args'[1]?)
    (h : PathQuery.evaluate item (subpath args) = PathQuery.evaluate item (subpath args')) :
    selects args item = selects args' item := by
  rw [evaluate_eq, evaluate_eq] at h
  rw [selects, selects, hliteral]
  cases args'[1]? with
  | none => rfl
  | some literal => simp only [matchesLiteral, Traced.value_map, h]

variable {args items} in
/-- What an operator gives depends on its sub-path only by what this selects from each element. -/
theorem value_congr {args' : List String} (op : Operator) (hliteral : args[1]? = args'[1]?)
    (h : ∀ item ∈ items,
      PathQuery.evaluate item (subpath args) = PathQuery.evaluate item (subpath args')) :
    (op.apply args (.arr items)).value = (op.apply args' (.arr items)).value := by
  have hselects : items.filter (selects args) = items.filter (selects args') :=
    List.filter_congr fun item hitem => selects_congr hliteral (h item hitem)
  cases op with
  | find => rw [value_find, value_find, ← List.head?_filter, hselects, List.head?_filter]
  | filter => rw [value_filter, value_filter, hselects]
  | map =>
    have hmap := List.map_congr_left h
    simp only [evaluate_eq] at hmap
    rw [value_map, value_map, hmap]
  | flat => rw [value_flat, value_flat]

variable {args} in
/-- On anything but an array an operator gives null. -/
theorem value_of_not_arr (op : Operator) {v : Value} (h : ∀ items, v ≠ .arr items) :
    (op.apply args v).value = .null := by
  rw [apply_of_not_arr op args h]
  rfl

end Operator

end PathQuery
