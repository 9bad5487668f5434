import PathQuery.Evaluation.Walk
import PathQuery.Proofs.Evaluation.Composition
import PathQuery.Proofs.Path.Argument

/-!
# Sub-paths

`Operator.applyWithin` goes down a given number of levels of operators, and leaves what is called
below them to `deeper`, of which nothing is assumed. It recurs on the number alone.

* `Operator.applyWithin_eq`: with more levels than `nesting` it is `Operator.apply`, value and
  trace. `nesting` is at most one, and zero for the arguments of a parsed call, which hold no
  parenthesis.
* `evaluate_within_levels`: one level suffices for a parsed path, and two for any application.
* `evaluate_map_subpath`: `map` evaluates its cleaned argument on each element. The argument as it
  was written selects the same under the condition of `Path.ofText_cleaned_iff`. A number in quotes
  fails it: it is a key as a path and an index as an argument.
-/

namespace PathQuery

namespace Operator

variable (deeper : Operator → List String → Value → Traced Value)

/-- Applies the operator, which is the first of so many levels. Below the last one it is `deeper`
that answers. -/
def applyWithin : Nat → Operator → List String → Value → Traced Value
  | 0, op, args, v => deeper op args v
  | levels + 1, op, args, .arr items => do
    let path ← Path.parse (subpath args)
    op.run (path.evaluateWith fun op' args' _ v => applyWithin levels op' args' v) args[1]? items
  | _ + 1, op, _, _ => do
    Traced.note (.notArray op)
    return .null

/-! ## Levels and parentheses -/

/-- Arguments from outside may call one more operator, and no arguments more than that. -/
theorem nesting_le_one (args : List String) : nesting args ≤ 1 := by
  rw [nesting]
  split <;> omega

/-- The arguments of a parsed call have no parenthesis left to call anything with. -/
theorem nesting_of_mem {text : String} {op : Operator} {args : List String}
    (h : Segment.call op args ∈ Path.ofText text) : nesting args = 0 := by
  have hlt : nesting args < nesting [text] := nesting_lt_of_mem h
  have hone := nesting_le_one [text]
  omega

end Operator

namespace Path

theorem parse_bind {α : Type} (text : String) (next : Path → Traced α) :
    (parse text >>= next) =
      Traced.note (.parsed text (ofText text).length) >>= fun _ => next (ofText text) := by
  rw [parse, bind_assoc]
  simp only [pure_bind]

/-- An evaluation only makes the calls of its path. -/
theorem evaluateWith_eq_evaluate {path : Path} {calls : Calls path}
    (h : ∀ op args hmem v, calls op args hmem v = op.apply args v) (document : Value) :
    path.evaluateWith calls document = path.evaluate document := by
  have hcalls : calls = fun op args _ v => op.apply args v := by
    funext op args hmem v
    exact h op args hmem v
  rw [hcalls, evaluate]

end Path

/-! ## Levels that suffice -/

/-- With a level for the operator itself and one for each that can still be called below it, the
levels make no difference. -/
theorem Operator.applyWithin_eq (deeper : Operator → List String → Value → Traced Value)
    {levels : Nat} {args : List String} (h : nesting args < levels) (op : Operator) (v : Value) :
    applyWithin deeper levels op args v = op.apply args v := by
  induction levels generalizing op args v with
  | zero => omega
  | succ levels ih =>
    cases v with
    | arr items =>
      -- the calls of the sub-path need a level less, so the hypothesis speaks of them
      have hsubpath : (Path.ofText (subpath args)).evaluateWith
          (fun op' args' _ v => applyWithin deeper levels op' args' v) =
            (Path.ofText (subpath args)).evaluate := by
        funext item
        refine Path.evaluateWith_eq_evaluate (fun op' args' hmem v => ?_) item
        have hlt := nesting_lt_of_mem hmem
        exact ih (by omega) op' v
      rw [applyWithin, apply_arr, Path.parse_bind, Path.parse_bind, hsubpath]
    | _ => rw [applyWithin, apply_of_not_arr] <;> exact nofun

namespace Path

/-- What the path selects from the document with so many levels of operators. -/
def evaluateWithin (deeper : Operator → List String → Value → Traced Value) (levels : Nat)
    (path : Path) (document : Value) : Traced Value :=
  path.evaluateWith (fun op args _ v => Operator.applyWithin deeper levels op args v) document

/-- One level of operators is all that a parsed path ever gets to. -/
theorem evaluateWithin_ofText (deeper : Operator → List String → Value → Traced Value)
    (text : String) (document : Value) :
    (ofText text).evaluateWithin deeper 1 document = (ofText text).evaluate document := by
  refine evaluateWith_eq_evaluate (fun op args hmem v => ?_) document
  have hnone := Operator.nesting_of_mem hmem
  exact Operator.applyWithin_eq deeper (by omega) op v

end Path

/-- Operators nest no further than two levels. An argument of a parsed path is a text without
parentheses and calls nothing, so following a path takes one level of operators. Applying an
operator to arguments from outside takes one level more. What would happen below does not matter. -/
theorem evaluate_within_levels :
    (∀ text op args, Segment.call op args ∈ Path.ofText text → ∀ arg ∈ args,
      Segment.IsArgument arg ∧ ∀ op' args', Segment.call op' args' ∉ Path.ofText arg) ∧
    (∀ deeper text document,
      (Path.ofText text).evaluateWithin deeper 1 document =
        (Path.ofText text).evaluate document) ∧
    ∀ deeper op args v, Operator.applyWithin deeper 2 op args v = op.apply args v := by
  refine ⟨?_, Path.evaluateWithin_ofText, ?_⟩
  · intro text op args hcall arg harg
    have hargument := Path.isArgument_of_mem hcall arg harg
    exact ⟨hargument, Path.ofText_noCall hargument.clear⟩
  · intro deeper op args v
    have hnesting := Operator.nesting_le_one args
    exact Operator.applyWithin_eq deeper (by omega) op v

/-- Blanks and quotes around the arguments do not hide a call in them. From outside there may be
one, and then a single level leaves it to `deeper`. -/
theorem evaluate_within_levels_filter :
    let text := "users.filter( info.role , ' admin ' )"
    let deeper : Operator → List String → Value → Traced Value := fun _ _ _ => pure (.bool true)
    let nested := Value.arr [.arr []]
    Segment.call .filter ["info.role", "admin"] ∈ Path.ofText text ∧
      "admin" ∈ ["info.role", "admin"] ∧ Segment.IsArgument "admin" ∧
      (∀ op args, Segment.call op args ∉ Path.ofText "admin") ∧
      Operator.applyWithin deeper 2 .map ["flat()"] nested = Operator.apply .map ["flat()"] nested ∧
      (Operator.applyWithin deeper 2 .map ["flat()"] nested).value = .arr [.arr []] ∧
      (Operator.applyWithin deeper 1 .map ["flat()"] nested).value = .arr [.bool true] := by
  intro text deeper nested
  obtain ⟨hargs, -, happly⟩ := evaluate_within_levels
  have hcall : Segment.call .filter ["info.role", "admin"] ∈ Path.ofText text := by
    decide +kernel
  have harg : "admin" ∈ ["info.role", "admin"] := by decide
  have hadmin := hargs text .filter _ hcall "admin" harg
  exact ⟨hcall, harg, hadmin.1, hadmin.2, happly deeper .map _ nested, by decide +kernel,
    by decide +kernel⟩

/-! ## The argument of a map -/

open Text (quoted trim)

namespace Path

/-- A call of `map` with a single token. A token of which nothing is left is no argument. -/
theorem ofText_map {s : String} (hs : Segment.Clear s) :
    ∃ args, ofText ("map(" ++ s ++ ")") = [.call .map args] ∧
      Operator.subpath args = Segment.cleaned s := by
  have htokens : ∀ token ∈ [s.toList], ∀ c ∈ token, Segment.isCallMark c = false := by
    rw [List.forall_mem_singleton]
    exact hs
  have htext : "map(" ++ s ++ ")" = String.ofList (Segment.callText .map [s.toList]) := by
    rw [← String.toList_inj, String.toList_ofList]
    simp [Segment.callText, Operator.name]
  have hsolid : trim (Segment.callText .map [s.toList]) ≠ [] := by
    rw [Segment.trim_callText, Segment.callText]
    exact List.append_ne_nil_of_right_ne_nil _ (List.cons_ne_nil _ _)
  rw [htext, ofText_of_whole (Segment.calm_callText .map htokens {}).1 hsolid,
    Segment.ofText_callText .map htokens]
  refine ⟨_, rfl, ?_⟩
  rw [List.map_singleton, Segment.cleaned]
  cases Segment.cleanArg s.toList <;> rfl

end Path

/-- What `map` selects from each element. -/
theorem evaluate_map_cleaned {s : String} (hs : Segment.Clear s) (items : List Value) :
    evaluate (.arr items) ("map(" ++ s ++ ")") =
      .arr (items.map fun item => evaluate item (Segment.cleaned s)) := by
  obtain ⟨args, hpath, hsubpath⟩ := Path.ofText_map hs
  have hne : Path.ofText ("map(" ++ s ++ ")") ≠ [] := by
    rw [hpath]
    exact List.cons_ne_nil _ _
  have hroot : (Path.ofText ("map(" ++ s ++ ")")).head? ≠ some (.key rootField) := by
    rw [hpath]
    exact nofun
  have hitem : ∀ item, ((Path.ofText (Operator.subpath args)).evaluate item).value =
      evaluate item (Segment.cleaned s) := by
    intro item
    rw [hsubpath, evaluate_eq]
  rw [evaluate_of_ne_nil hne, Path.fromRoot_of_head? hroot, hpath, Path.select_singleton,
    Segment.select, Operator.value_map]
  simp only [hitem]

/-- `map` selects from each element what its argument, once cleaned, selects as a path. Unless the
argument stands in quotes around something else than a name, it selects that as it stands. -/
theorem evaluate_map_subpath {s : String} (hs : Segment.Clear s) (items : List Value) :
    evaluate (.arr items) ("map(" ++ s ++ ")") =
        .arr (items.map fun item => evaluate item (Segment.cleaned s)) ∧
      ((∀ cs, trim s.toList = quoted cs → Segment.IsName cs) →
        evaluate (.arr items) ("map(" ++ s ++ ")") =
          .arr (items.map fun item => evaluate item s)) := by
  refine ⟨evaluate_map_cleaned hs items, ?_⟩
  intro hname
  have hpath : Path.ofText (Segment.cleaned s) = Path.ofText s :=
    (Path.ofText_cleaned_iff hs).mpr hname
  rw [evaluate_map_cleaned hs]
  simp only [evaluate_eq, hpath]

/-- A name in quotes, spaced out on both sides of them. -/
theorem evaluate_map_subpath_quoted :
    let s := " ' first name ' "
    let items : List Value := [.obj [("first name", .str "Ann")], .str "Bob"]
    Segment.Clear s ∧ (∀ cs, trim s.toList = quoted cs → Segment.IsName cs) ∧
      evaluate (.arr items) ("map(" ++ s ++ ")") =
        .arr (items.map fun item => evaluate item s) ∧
      items.map (fun item => evaluate item s) = [.str "Ann", .null] := by
  intro s items
  have hs : Segment.Clear s := by decide
  have hname : ∀ cs, trim s.toList = quoted cs → Segment.IsName cs := by
    intro cs hcs
    have hquoted : trim s.toList = quoted " first name ".toList := by decide
    rw [← Text.quoted_injective (hquoted.symm.trans hcs)]
    exact Segment.isName_of_ofText (by decide) (by decide) (by decide)
  exact ⟨hs, hname, (evaluate_map_subpath hs items).2 hname, by decide +kernel⟩

/-- A number in quotes is not a name: it is an index as an argument and a key as a path. -/
theorem evaluate_map_quoted_number :
    ¬∀ (s : String) (items : List Value), Segment.Clear s → Path.ofText s ≠ [] →
      evaluate (.arr items) ("map(" ++ s ++ ")") =
        .arr (items.map fun item => evaluate item s) := by
  intro h
  have hclear : Segment.Clear "'5'" := by decide
  have hmap := h "'5'" [.obj [("5", .bool true)]] hclear (by decide)
  rw [evaluate_map_cleaned hclear] at hmap
  exact absurd hmap (by decide +kernel)

end PathQuery
