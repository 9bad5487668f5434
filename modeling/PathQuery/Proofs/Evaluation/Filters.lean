import PathQuery.Proofs.Evaluation.Composition
import PathQuery.Proofs.Json.Parts
import PathQuery.Proofs.Number.Exact
import PathQuery.Proofs.Path.Brackets
import PathQuery.Proofs.Path.Calls

/-!
# Finding and filtering

* `evaluate_filters`: filters behind a path commute and are idempotent. A walk may end between two
  filters at an empty array, which is also what the other filter would leave of it
  (`Path.select_filter_filter`).
* `evaluate_find_filter`: with a sub-path and a literal, `filter` keeps the elements whose rendered
  and trimmed selection is the literal, and `find` gives the first of them.
* `Value.IsMatchable` are the values whose rendering some literal is equal to. A literal is never
  empty and holds no parenthesis and no comma, which excludes null, arrays of two elements and
  objects of two fields. `selected_matchable` says so of every element that is selected.
-/

namespace PathQuery

/-! ## Filters behind filters -/

namespace Path

/-- From anything but an array a call selects null, and the walk ends. -/
theorem select_call_of_not_arr (op : Operator) (args : List String) (rest : Path) {v : Value}
    (h : ∀ items, v ≠ .arr items) : select (.call op args :: rest) v = .null := by
  rw [select_cons, Segment.select, Operator.value_of_not_arr op h]
  rfl

/-- The walk along two filters keeps what both of them keep, also where it ends behind the first. -/
theorem select_filter_filter (args args' : List String) (items : List Value) :
    select [.call .filter args, .call .filter args'] (.arr items) =
      .arr ((items.filter (Operator.selects args)).filter (Operator.selects args')) := by
  rw [select_cons, select_singleton, Segment.select, Operator.value_filter]
  split
  · rename_i hfalsy
    have hempty : items.filter (Operator.selects args) = [] := List.isEmpty_iff.mp hfalsy
    rw [hempty, List.filter_nil]
  · rw [Segment.select, Operator.value_filter]

/-- Two filters commute, from any value. -/
theorem select_filters_comm (args args' : List String) (v : Value) :
    select [.call .filter args, .call .filter args'] v =
      select [.call .filter args', .call .filter args] v := by
  cases v with
  | arr items =>
    rw [select_filter_filter, select_filter_filter, List.filter_filter, List.filter_filter]
    exact congrArg _ (List.filter_congr fun _ _ => Bool.and_comm _ _)
  | _ => rw [select_call_of_not_arr, select_call_of_not_arr] <;> exact nofun

/-- A filter is idempotent, from any value. -/
theorem select_filters_idem (args : List String) (v : Value) :
    select [.call .filter args, .call .filter args] v = select [.call .filter args] v := by
  cases v with
  | arr items =>
    rw [select_filter_filter, List.filter_filter, select_singleton, Segment.select,
      Operator.value_filter]
    simp only [Bool.and_self]
  | _ => rw [select_call_of_not_arr, select_call_of_not_arr] <;> exact nofun

/-- Behind a path, two continuations that begin with a call may be exchanged if they select the same
from every value. -/
theorem value_evaluate_append_calls_congr {op op' : Operator} {args args' : List String}
    {rest rest' : Path}
    (h : ∀ v, select (.call op args :: rest) v = select (.call op' args' :: rest') v)
    (p : Path) (v : Value) :
    ((p ++ .call op args :: rest).evaluate v).value =
      ((p ++ .call op' args' :: rest').evaluate v).value :=
  -- no call is the name of the document, so nothing is dropped where `p` is empty
  value_evaluate_append_congr (List.cons_ne_nil _ _) (List.cons_ne_nil _ _) head?_call_ne_root
    head?_call_ne_root h p v

end Path

/-- Filters behind a path commute, and a filter that comes again changes nothing, whatever the path
leads to. -/
theorem evaluate_filters (document : Value) {p x y : String}
    (hp : (Scan.ofText p.toList).mute = 0) (hx : Segment.Unparenthesized x)
    (hy : Segment.Unparenthesized y) :
    let f := "filter(" ++ x ++ ")"
    let g := "filter(" ++ y ++ ")"
    evaluate document (p ++ "." ++ f ++ "." ++ g) = evaluate document (p ++ "." ++ g ++ "." ++ f) ∧
      evaluate document (p ++ "." ++ f ++ "." ++ f) = evaluate document (p ++ "." ++ f) := by
  intro f g
  have hf : f = Operator.filter.callText x := rfl
  have hg : g = Operator.filter.callText y := rfl
  simp only [hf, hg, evaluate_eq]
  constructor
  · rw [Path.ofText_append_calls hp .filter .filter hx hy,
      Path.ofText_append_calls hp .filter .filter hy hx]
    exact Path.value_evaluate_append_calls_congr (Path.select_filters_comm _ _) _ document
  · rw [Path.ofText_append_calls hp .filter .filter hx hx, Path.ofText_append_call hp .filter hx]
    exact Path.value_evaluate_append_calls_congr (Path.select_filters_idem _) _ document

/-- Behind a bracket that stays open, each filter keeps something, but both together nothing. -/
theorem evaluate_filters_disjoint :
    let ann := Value.obj [("name", .str "Ann"), ("tags", .arr [.str "x,y"])]
    let bob := Value.obj [("name", .str " Bob "), ("on", .bool true)]
    let document := Value.obj [("a", .arr [ann, bob])]
    let p := "root[a"
    let f := "filter(" ++ "name,'Ann',''" ++ ")"
    let g := "filter(" ++ " on , true" ++ ")"
    (Scan.ofText p.toList).mute = 0 ∧ Segment.Unparenthesized "name,'Ann',''" ∧
      Segment.Unparenthesized " on , true" ∧
      evaluate document (p ++ "." ++ f ++ "." ++ g) =
        evaluate document (p ++ "." ++ g ++ "." ++ f) ∧
      evaluate document (p ++ "." ++ f ++ "." ++ f) = evaluate document (p ++ "." ++ f) ∧
      evaluate document (p ++ "." ++ f) = .arr [ann] ∧
      evaluate document (p ++ "." ++ g) = .arr [bob] := by
  intro ann bob document p f g
  have hp : (Scan.ofText p.toList).mute = 0 := by decide
  have hx : Segment.Unparenthesized "name,'Ann',''" := by decide
  have hy : Segment.Unparenthesized " on , true" := by decide
  obtain ⟨hcomm, hidem⟩ := evaluate_filters document hp hx hy
  exact ⟨hp, hx, hy, hcomm, hidem, by decide +kernel, by decide +kernel⟩

/-! ## Selecting by a literal -/

open Text (trim)

namespace Operator

/-- A sub-path and a literal select an element by its rendering. -/
theorem selects_pair (subpath literal : String) (item : Value) :
    selects [subpath, literal] item =
      decide (String.ofList (trim (evaluate item subpath).render) = literal) := by
  have hsubpath : Operator.subpath [subpath, literal] = subpath := rfl
  have hliteral : [subpath, literal][1]? = some literal := rfl
  rw [selects, hsubpath, hliteral, matchesLiteral, Traced.value_map, evaluate_eq]

/-- The same for a sub-path as it is written, without quotes. -/
theorem selects_cleaned {s : String} (hs : Segment.Clear s) (hquote : '\'' ∉ s.toList)
    (literal : String) (item : Value) :
    selects [Segment.cleaned s, literal] item =
      decide (String.ofList (trim (evaluate item s).render) = literal) := by
  rw [selects_pair, evaluate_eq, evaluate_eq, Segment.ofText_cleaned_of_unquoted hs hquote]

end Operator

/-- The first index, behind a closed path. -/
theorem Path.ofText_append_first {p : String} (hp : (Scan.ofText p.toList).IsClosed) :
    ofText (p ++ "[0]") = ofText p ++ [.index (.natural 0 (by decide))] := by
  have hdigit : ∀ c ∈ "0".toList, Counts.isStructural c = false := by simp [Counts.isStructural]
  have hzero : ofText "0" = [.index (.natural 0 (by decide))] := by decide
  have htext : p ++ "[0]" = p ++ "[" ++ "0" ++ "]" := by
    rw [← String.toList_inj]
    simp
  rw [htext, ofText_append_brackets hp hdigit, hzero]

section

variable {document : Value} {p s literal : String}

/-- Behind a path that leads to a truthy value, the call of a sub-path and a literal acts on this
value. -/
theorem evaluate_append_literal (hmute : (Scan.ofText p.toList).mute = 0)
    (htruthy : (evaluate document p).isFalsy = false) (op : Operator) (hs : Segment.Clear s)
    (hquote : '\'' ∉ s.toList) (hpath : Path.ofText s ≠ []) (hl : Segment.IsArgument literal) :
    evaluate document (p ++ "." ++ op.callText (Segment.literalText s literal)) =
      (Segment.call op [Segment.cleaned s, literal]).select (evaluate document p) := by
  have htext := Path.ofText_append_literal hmute op hs hquote hpath hl
  rw [evaluate_of_append htext htruthy Path.head?_call_ne_root, Path.select_singleton]

/-- The first index behind such a call. -/
theorem evaluate_append_literal_first (hclosed : (Scan.ofText p.toList).IsClosed)
    (htruthy : (evaluate document p).isFalsy = false) (op : Operator) (hs : Segment.Clear s)
    (hquote : '\'' ∉ s.toList) (hpath : Path.ofText s ≠ []) (hl : Segment.IsArgument literal) :
    evaluate document (p ++ "." ++ op.callText (Segment.literalText s literal) ++ "[0]") =
      Path.select [.call op [Segment.cleaned s, literal], .index (.natural 0 (by decide))]
        (evaluate document p) := by
  have hcall :
      (Scan.ofText (p ++ "." ++ op.callText (Segment.literalText s literal)).toList).IsClosed :=
    Path.isClosed_append_call hclosed op (Segment.unparenthesized_literalText hs hl.clear)
  refine evaluate_of_append ?_ htruthy Path.head?_call_ne_root
  rw [Path.ofText_append_first hcall, Path.ofText_append_literal hclosed.1 op hs hquote hpath hl,
    List.append_assoc]
  rfl

end

/-- The first element that a filter keeps. Behind an empty array the walk does not go on. -/
theorem Path.select_filter_first (args : List String) (items : List Value) :
    select [.call .filter args, .index (.natural 0 (by decide))] (.arr items) =
      (items.filter (Operator.selects args)).head?.getD (.arr []) := by
  have hfilter : (Segment.call .filter args).select (.arr items) =
      .arr (items.filter (Operator.selects args)) := Operator.value_filter args items
  rw [select_cons, select_singleton, hfilter, Segment.select, Value.item?,
    Binary64.toNat?_natural]
  cases items.filter (Operator.selects args) <;> rfl

/-- Behind a path that leads to an array with elements, `filter` keeps the elements whose sub-path
renders as the literal, each as often as it comes and in their order. `find` gives the first of
them, or null. The first index of what `filter` keeps is what `find` gives, unless nothing is kept:
then the walk is over before it comes to the index. -/
theorem evaluate_find_filter {document : Value} {p s literal : String} {items : List Value}
    (hclosed : (Scan.ofText p.toList).IsClosed) (hp : evaluate document p = .arr items)
    (hne : items ≠ []) (hs : Segment.Clear s) (hquote : '\'' ∉ s.toList)
    (hpath : Path.ofText s ≠ []) (hl : Segment.IsArgument literal) :
    let matching := items.filter fun item =>
      String.ofList (trim (evaluate item s).render) = literal
    let filtered := p ++ ".filter(" ++ s ++ ",'" ++ literal ++ "')"
    let found := p ++ ".find(" ++ s ++ ",'" ++ literal ++ "')"
    evaluate document filtered = .arr matching ∧
      evaluate document found = matching.head?.getD .null ∧
      (matching ≠ [] → evaluate document (filtered ++ "[0]") = evaluate document found) ∧
      (matching = [] → evaluate document (filtered ++ "[0]") = .arr []) := by
  intro matching filtered found
  have htruthy : (evaluate document p).isFalsy = false := by
    rw [hp]
    exact List.isEmpty_eq_false_iff.mpr hne
  have hmatching : items.filter (Operator.selects [Segment.cleaned s, literal]) = matching :=
    List.filter_congr fun item _ => Operator.selects_cleaned hs hquote literal item
  -- the texts as calls behind the path
  have hfiltered : filtered =
      p ++ "." ++ Operator.filter.callText (Segment.literalText s literal) := by
    rw [← String.toList_inj]
    simp [filtered, Operator.callText, Operator.name, Segment.literalText]
  have hfound : found = p ++ "." ++ Operator.find.callText (Segment.literalText s literal) := by
    rw [← String.toList_inj]
    simp [found, Operator.callText, Operator.name, Segment.literalText]
  -- what they select from the array
  have hfilter : evaluate document filtered = .arr matching := by
    rw [hfiltered, evaluate_append_literal hclosed.1 htruthy .filter hs hquote hpath hl, hp,
      Segment.select, Operator.value_filter, hmatching]
  have hfind : evaluate document found = matching.head?.getD .null := by
    rw [hfound, evaluate_append_literal hclosed.1 htruthy .find hs hquote hpath hl, hp,
      Segment.select, Operator.value_find, ← List.head?_filter, hmatching]
  have hfirst : evaluate document (filtered ++ "[0]") = matching.head?.getD (.arr []) := by
    rw [hfiltered, evaluate_append_literal_first hclosed htruthy .filter hs hquote hpath hl, hp,
      Path.select_filter_first, hmatching]
  refine ⟨hfilter, hfind, fun hsome => ?_, fun hnone => ?_⟩
  · obtain ⟨first, rest, hmatch⟩ := List.exists_cons_of_ne_nil hsome
    rw [hfirst, hfind, hmatch]
    rfl
  · rw [hfirst, hnone]
    rfl

/-- A literal with a quote and a bracket in it, and two elements that render as it. -/
theorem evaluate_find_filter_repeated :
    let ann := Value.obj [("tags", .arr [.str " it's [b "])]
    let bob := Value.obj [("tags", .arr [.str "dev", .null])]
    let document := Value.obj [("team", .arr [.arr [bob, ann, ann]])]
    let p := "root.team[0]"
    let s := " tags "
    let literal := "it's [b"
    (Scan.ofText p.toList).IsClosed ∧ evaluate document p = .arr [bob, ann, ann] ∧
      Segment.Clear s ∧ '\'' ∉ s.toList ∧ Path.ofText s ≠ [] ∧ Segment.IsArgument literal ∧
      evaluate document (p ++ ".filter(" ++ s ++ ",'" ++ literal ++ "')") = .arr [ann, ann] ∧
      evaluate document (p ++ ".find(" ++ s ++ ",'" ++ literal ++ "')") = ann ∧
      evaluate document (p ++ ".filter(" ++ s ++ ",'" ++ literal ++ "')" ++ "[0]") = ann := by
  intro ann bob document p s literal
  have hclosed : (Scan.ofText p.toList).IsClosed := by decide
  have hp : evaluate document p = .arr [bob, ann, ann] := by decide +kernel
  have hs : Segment.Clear s := by decide
  have hquote : '\'' ∉ s.toList := by decide
  have hpath : Path.ofText s ≠ [] := by decide
  have hl : Segment.IsArgument literal := ⟨by decide, by decide, by decide⟩
  have hmatching : [bob, ann, ann].filter (fun item =>
      String.ofList (trim (evaluate item s).render) = literal) = [ann, ann] := by decide +kernel
  obtain ⟨hfilter, hfind, hfirst, -⟩ :=
    evaluate_find_filter hclosed hp (List.cons_ne_nil _ _) hs hquote hpath hl
  rw [hmatching] at hfilter hfind hfirst
  refine ⟨hclosed, hp, hs, hquote, hpath, hl, hfilter, hfind, ?_⟩
  rw [hfirst (List.cons_ne_nil _ _), hfind]
  rfl

/-! ## Values that no literal matches -/

namespace Value

/-- A literal can be written that the rendering of the value is equal to. -/
structure IsMatchable (v : Value) : Prop where
  solid : trim v.render ≠ []
  clear : ∀ c ∈ trim v.render, Segment.isCallMark c = false

variable {v : Value}

/-- `IsMatchable` in terms of literals that can be written. -/
theorem isMatchable_iff :
    v.IsMatchable ↔
      ∃ literal, Segment.IsArgument literal ∧ String.ofList (trim v.render) = literal := by
  constructor
  · intro h
    refine ⟨_, ⟨?_, ?_, ?_⟩, rfl⟩
    · intro hempty
      rw [← String.toList_inj, String.toList_ofList] at hempty
      exact h.solid hempty
    · rw [String.toList_ofList, Text.trim_trim]
    · rw [Segment.Clear, String.toList_ofList]
      exact h.clear
  · rintro ⟨literal, hl, rfl⟩
    constructor
    · intro hempty
      exact hl.ne_empty (congrArg String.ofList hempty)
    · intro c hc
      exact hl.clear c (by rwa [String.toList_ofList])

/-- An array of two elements renders with a comma. -/
theorem comma_mem_render_arr {first second : Value} {rest : List Value} :
    ',' ∈ (arr (first :: second :: rest)).render := by
  simp [render, renderItems]

namespace IsMatchable

theorem comma_not_mem (h : v.IsMatchable) : ',' ∉ v.render := by
  intro hmem
  exact absurd (h.clear ',' (Text.mem_trim hmem (by decide))) (by decide)

theorem ne_null (h : v.IsMatchable) : v ≠ null := by
  rintro rfl
  exact h.solid rfl

theorem solid_of_str {s : String} (h : (str s).IsMatchable) : trim s.toList ≠ [] := by
  have hsolid := h.solid
  rwa [render] at hsolid

/-- A matchable array has one element. -/
theorem length_of_arr {items : List Value} (h : (arr items).IsMatchable) : items.length = 1 := by
  match items with
  | [] => exact absurd rfl h.solid
  | [_] => rfl
  | _ :: _ :: _ => exact absurd comma_mem_render_arr h.comma_not_mem

/-- There is no object of two fields in a matchable value. -/
theorem not_isWide (h : v.IsMatchable) : ¬v.IsWide :=
  fun hwide => h.comma_not_mem hwide.comma_mem_render

end IsMatchable

end Value

/-- Where an element is selected by parsed arguments, its selection is matchable. -/
theorem Operator.isMatchable_of_selects {args : List String}
    (h : ∀ arg ∈ args, Segment.IsArgument arg) {item : Value} (hitem : selects args item = true) :
    (evaluate item (subpath args)).IsMatchable := by
  rw [selects] at hitem
  cases hliteral : args[1]? with
  | none =>
    rw [hliteral] at hitem
    cases hitem
  | some literal =>
    rw [hliteral, matchesLiteral, Traced.value_map, decide_eq_true_eq, ← evaluate_eq] at hitem
    exact Value.isMatchable_iff.mpr ⟨literal, h literal (List.mem_of_getElem? hliteral), hitem⟩

/-- Take the arguments of any call in a path, and any array. For each element that `filter` keeps
with them, and so for the one that `find` gives, the sub-path leads to a value whose rendering,
trimmed, is not empty and holds neither a parenthesis nor a comma. Such a value is not null, not a
blank string, not an array unless it has exactly one element, and there is no object with two or
more fields in it. -/
theorem selected_matchable {text : String} {op : Operator} {args : List String}
    (hcall : Segment.call op args ∈ Path.ofText text) (items : List Value) :
    ∃ selected : List Value,
      (Operator.filter.apply args (.arr items)).value = .arr selected ∧
      (Operator.find.apply args (.arr items)).value = selected.head?.getD .null ∧
      ∀ item ∈ selected,
        let v := evaluate item (Operator.subpath args)
        (trim v.render ≠ [] ∧ ∀ c ∈ trim v.render, c ≠ '(' ∧ c ≠ ')' ∧ c ≠ ',') ∧
          v ≠ .null ∧ (∀ s, v = .str s → trim s.toList ≠ []) ∧
          (∀ inner, v = .arr inner → inner.length = 1) ∧ ¬v.IsWide := by
  refine ⟨items.filter (Operator.selects args), Operator.value_filter args items, ?_, ?_⟩
  · rw [Operator.value_find, List.head?_filter]
  · intro item hitem v
    have hmatch : v.IsMatchable :=
      Operator.isMatchable_of_selects (Path.isArgument_of_mem hcall) (List.mem_filter.mp hitem).2
    refine ⟨⟨hmatch.solid, fun c hc => ?_⟩, hmatch.ne_null, fun s hs => ?_, fun inner hinner => ?_,
      hmatch.not_isWide⟩
    · have hclear := hmatch.clear c hc
      simpa [Segment.isCallMark, and_assoc] using hclear
    · rw [hs] at hmatch
      exact hmatch.solid_of_str
    · rw [hinner] at hmatch
      exact hmatch.length_of_arr

/-- An array in an array, with an object of one field in it: there is a literal for that, and only
one of the elements has it. -/
theorem selected_matchable_nested :
    let text := "root.a[0].find( 'tags' ,\x7b\"b\":[]\x7d, ,(x)).c"
    let args := ["tags", "\x7b\"b\":[]\x7d", "x"]
    let inner := Value.arr [.arr [.obj [("b", .arr [])]]]
    let item := Value.obj [("tags", inner)]
    let wide := Value.obj [("tags", .arr [.obj [("b", .arr []), ("c", .null)]])]
    Segment.call .find args ∈ Path.ofText text ∧
      (Operator.filter.apply args (.arr [wide, item])).value = .arr [item] ∧
      evaluate item (Operator.subpath args) = inner ∧ trim inner.render ≠ [] ∧ ¬inner.IsWide := by
  intro text args inner item wide
  have hcall : Segment.call .find args ∈ Path.ofText text := by decide +kernel
  have hfilter : (Operator.filter.apply args (.arr [wide, item])).value = .arr [item] := by
    rw [Operator.value_filter]
    decide +kernel
  have hinner : evaluate item (Operator.subpath args) = inner := by decide +kernel
  obtain ⟨selected, hselected, -, hall⟩ := selected_matchable hcall [wide, item]
  rw [hfilter] at hselected
  cases hselected
  have hitem := hall item List.mem_cons_self
  rw [hinner] at hitem
  exact ⟨hcall, hfilter, hinner, hitem.1.1, hitem.2.2.2.2⟩

end PathQuery
