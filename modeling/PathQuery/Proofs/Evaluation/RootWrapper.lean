import PathQuery.Proofs.Evaluation.Composition

/-!
# The document under its own name

`Value.wrapped` is the object whose only field `root` is the document. A leading `root` can be read
as a step from there, whereas `fromRoot` drops it.

* `evaluate_root_wrapped`: both give the same iff `Path.RestsAt` holds. The wrapped walk ends at a
  falsy document, and the evaluation makes one more step. That step gives null, but for operators
  other than `find` on the empty array (`Segment.select_of_isFalsy`).
* `evaluate_root_dot`: without a field of that name in the document, a leading `root` may be left
  out.
-/

namespace PathQuery

/-- The object whose only field is the document, under the name that paths have for it. -/
def Value.wrapped (document : Value) : Value := .obj [(rootField, document)]

/-! ## Steps from a falsy value -/

namespace Segment

/-- The segment selects the empty array from the empty array. -/
def KeepsEmpty : Segment → Prop
  | call op _ => op ≠ .find
  | _ => False

/-- Operators other than `find` keep the empty array. -/
theorem select_empty {segment : Segment} (h : segment.KeepsEmpty) :
    segment.select (.arr []) = .arr [] := by
  cases segment with
  | key name => exact h.elim
  | index position => exact h.elim
  | call op args =>
    rw [select]
    cases op with
    | find => exact absurd rfl h
    | filter => rw [Operator.value_filter, List.filter_nil]
    | map => rw [Operator.value_map, List.map_nil]
    | flat => rw [Operator.value_flat, List.flatMap_nil]

/-- There is nothing to be found in a falsy value. -/
theorem select_of_isFalsy {segment : Segment} {v : Value} (hv : v.isFalsy = true)
    (h : ¬(v = .arr [] ∧ segment.KeepsEmpty)) : segment.select v = .null := by
  have harr : v = .arr [] ∨ ∀ items, v ≠ .arr items := by
    cases v with
    | arr items => exact .inl (congrArg _ (List.isEmpty_iff.mp hv))
    | _ => exact .inr nofun
  cases segment with
  | key name =>
    cases v with
    | obj fields => cases hv
    | _ => rfl
  | index position =>
    rw [select]
    rcases harr with rfl | hother
    · rw [Value.item?]
      cases position.toNat? <;> rfl
    · rw [Value.item?_of_not_arr hother]
      rfl
  | call op args =>
    rw [select]
    rcases harr with rfl | hother
    · -- `find` is the one operator left, and there is no element to find
      have hop : op = .find := Decidable.not_not.mp fun hne => h ⟨rfl, hne⟩
      rw [hop, Operator.value_find]
      rfl
    · exact Operator.value_of_not_arr op hother

end Segment

namespace Path

/-- Whether a walk that begins with the document's own name ends up the same with and without an
early exit behind the name. -/
def RestsAt (document : Value) (rest : Path) : Prop :=
  document.isFalsy = false ∨ document = .null ∨ rest = [] ∨
    document = .arr [] ∧ ∃ segment ∈ rest.head?, segment.KeepsEmpty

/-- The walk from a falsy document: it ends where it began, or with null behind the first step. -/
theorem select_of_isFalsy {document : Value} (hfalsy : document.isFalsy = true) (rest : Path) :
    (rest.RestsAt document → rest.select document = document) ∧
      (¬rest.RestsAt document → rest.select document = .null) := by
  cases rest with
  | nil => exact ⟨fun _ => rfl, fun h => absurd (.inr (.inr (.inl rfl))) h⟩
  | cons segment rest =>
    by_cases hempty : document = .arr [] ∧ segment.KeepsEmpty
    · -- the step leads from the empty array to itself
      have hrests : RestsAt document (segment :: rest) :=
        .inr (.inr (.inr ⟨hempty.1, segment, rfl, hempty.2⟩))
      refine ⟨fun _ => ?_, fun h => absurd hrests h⟩
      rw [select_cons, hempty.1, Segment.select_empty hempty.2]
      rfl
    · have hnull : select (segment :: rest) document = .null := by
        rw [select_cons, Segment.select_of_isFalsy hfalsy hempty]
        rfl
      refine ⟨?_, fun _ => hnull⟩
      rintro (htruthy | rfl | hnil | ⟨hdocument, segment', hhead, hkeeps⟩)
      · rw [hfalsy] at htruthy
        cases htruthy
      · exact hnull
      · cases hnil
      · cases hhead
        exact absurd ⟨hdocument, hkeeps⟩ hempty

/-! ## The wrapped walk -/

/-- The first step from the wrapper leads to the document, and the early exit looks at it. -/
theorem select_wrapped (document : Value) (rest : Path) :
    select (.key rootField :: rest) document.wrapped =
      if document.isFalsy then document else rest.select document := by
  have hstep : (Segment.key rootField).select document.wrapped = document := by
    rw [Segment.select, Value.wrapped, Value.field?, Fields.get?_cons, if_pos rfl]
    rfl
  rw [select_cons, hstep]

/-- A leading `root` is taken off where nothing else is meant by it. -/
theorem fromRoot_cons_root {document : Value} {rest : Path}
    (h : document.field? rootField = none ∨ rest.head? = some (.key rootField)) :
    fromRoot (.key rootField :: rest) document = rest := by
  have hnone : (document.field? rootField).isNone = true ↔ document.field? rootField = none :=
    Option.isNone_iff_eq_none
  rw [fromRoot, if_pos ⟨rfl, h.imp_left hnone.mpr⟩]

end Path

/-- A leading `root` that stands for the document is a step from the wrapper, whenever the document
is truthy or null, the path ends there, or an operator other than `find` takes up the empty array.
In all other cases the wrapped walk ends with the falsy document and the evaluation with null. -/
theorem evaluate_root_wrapped {document : Value} {text : String} {rest : Path}
    (hpath : Path.ofText text = .key rootField :: rest)
    (hroot : document.field? rootField = none ∨ rest.head? = some (.key rootField)) :
    (evaluate document text = (Path.ofText text).select document.wrapped ↔
        rest.RestsAt document) ∧
      (¬rest.RestsAt document →
        evaluate document text = .null ∧
          (Path.ofText text).select document.wrapped = document) := by
  have hne : Path.ofText text ≠ [] := by
    rw [hpath]
    exact List.cons_ne_nil _ _
  have hevaluate : evaluate document text = rest.select document := by
    rw [evaluate_of_ne_nil hne, hpath, Path.fromRoot_cons_root hroot]
  rw [hevaluate, hpath, Path.select_wrapped]
  cases hfalsy : document.isFalsy with
  | false =>
    have hrests : rest.RestsAt document := .inl hfalsy
    exact ⟨iff_of_true rfl hrests, fun h => absurd hrests h⟩
  | true =>
    obtain ⟨hstay, hleave⟩ := Path.select_of_isFalsy hfalsy rest
    rw [if_pos rfl]
    by_cases hrests : rest.RestsAt document
    · exact ⟨iff_of_true (hstay hrests) hrests, fun h => absurd hrests h⟩
    · -- null is the one document that the evaluation could still come back to
      have hnull : Value.null ≠ document := fun h => hrests (.inr (.inl h.symm))
      rw [hleave hrests]
      exact ⟨iff_of_false hnull hrests, fun _ => ⟨rfl, rfl⟩⟩

/-- The empty array, taken up by `filter`: both walks end with it, at different steps. -/
theorem evaluate_root_wrapped_filter :
    let document := Value.arr []
    let text := "root.filter(id,'5').name"
    let rest : Path := [.call .filter ["id", "5"], .key "name"]
    Path.ofText text = .key rootField :: rest ∧
      (document.field? rootField = none ∨ rest.head? = some (.key rootField)) ∧
      rest.RestsAt document ∧
      evaluate document text = (Path.ofText text).select document.wrapped := by
  intro document text rest
  have hpath : Path.ofText text = .key rootField :: rest := by decide
  have hroot : document.field? rootField = none ∨ rest.head? = some (.key rootField) := .inl rfl
  have hrests : rest.RestsAt document := .inr (.inr (.inr ⟨rfl, _, rfl, nofun⟩))
  exact ⟨hpath, hroot, hrests, (evaluate_root_wrapped hpath hroot).1.mpr hrests⟩

/-- Zero is where the wrapped walk ends, while looking for a field of it gives null. -/
theorem evaluate_root_of_zero :
    ¬∀ (document : Value) (text : String) (rest : Path),
      Path.ofText text = .key rootField :: rest →
      (document.field? rootField = none ∨ rest.head? = some (.key rootField)) →
      evaluate document text = (Path.ofText text).select document.wrapped := by
  intro h
  have hzero := h (.num (.int 0 (by decide))) "root.a" [.key "a"] (by decide) (.inl rfl)
  exact absurd hzero (by decide +kernel)

/-! ## The name in front of a path -/

/-- The name is a segment of its own, whatever text comes behind the dot. -/
theorem Path.ofText_root_dot (q : String) :
    Path.ofText ("root." ++ q) = .key rootField :: Path.ofText q := by
  have htext : "root." ++ q = "root" ++ "." ++ q := rfl
  have hclosed : (Scan.ofText "root".toList).IsClosed := by decide
  have hname : Path.ofText "root" = [.key rootField] := by decide
  rw [htext, Path.ofText_append_dot hclosed, hname, List.singleton_append]

/-- The document's own name may be left out in front of a path that does not begin with it, if the
document has no field of that name. Falsy documents are no exception. The same goes for the sub-path
of an operator, if no element has such a field. -/
theorem evaluate_root_dot {q : String} (hq : Path.ofText q ≠ [])
    (hroot : (Path.ofText q).head? ≠ some (.key rootField)) :
    (∀ v : Value, v.field? rootField = none → evaluate v ("root." ++ q) = evaluate v q) ∧
    ∀ (op : Operator) (more : List String) (items : List Value),
      (∀ item ∈ items, item.field? rootField = none) →
        (op.apply (("root." ++ q) :: more) (.arr items)).value =
          (op.apply (q :: more) (.arr items)).value := by
  have hplain : ∀ v : Value, v.field? rootField = none →
      evaluate v ("root." ++ q) = evaluate v q := by
    intro v hv
    have hpath : Path.ofText ("root." ++ q) = .key rootField :: Path.ofText q :=
      Path.ofText_root_dot q
    have hne : Path.ofText ("root." ++ q) ≠ [] := by
      rw [hpath]
      exact List.cons_ne_nil _ _
    rw [evaluate_of_ne_nil hne, hpath, Path.fromRoot_cons_root (.inl hv), evaluate_of_ne_nil hq,
      Path.fromRoot_of_head? hroot]
  refine ⟨hplain, fun op more items hitems => ?_⟩
  exact Operator.value_congr op rfl fun item hitem => hplain item (hitems item hitem)

/-- A path with a bracket that stays open, from zero and from the elements of an array. -/
theorem evaluate_root_dot_unbalanced :
    let q := "a[b"
    let zero : Value := .num (.int 0 (by decide))
    let items : List Value := [zero, .obj [("a", .obj [("b", .str " x ")])], .null]
    Path.ofText q ≠ [] ∧ (Path.ofText q).head? ≠ some (.key rootField) ∧
      zero.field? rootField = none ∧ (∀ item ∈ items, item.field? rootField = none) ∧
      evaluate zero ("root." ++ q) = evaluate zero q ∧
      (Operator.find.apply ["root." ++ q, "x"] (.arr items)).value =
        (Operator.find.apply [q, "x"] (.arr items)).value ∧
      (Operator.find.apply [q, "x"] (.arr items)).value =
        .obj [("a", .obj [("b", .str " x ")])] := by
  intro q zero items
  have hq : Path.ofText q ≠ [] := by decide
  have hroot : (Path.ofText q).head? ≠ some (.key rootField) := by decide
  have hitems : ∀ item ∈ items, item.field? rootField = none := by
    simp [items, zero, Value.field?, Fields.get?, rootField]
  obtain ⟨hvalue, hoperator⟩ := evaluate_root_dot hq hroot
  refine ⟨hq, hroot, rfl, hitems, hvalue zero rfl, hoperator .find ["x"] items hitems, ?_⟩
  rw [Operator.value_find]
  decide +kernel

end PathQuery
