import PathQuery.Proofs.Evaluation.Selection
import PathQuery.Proofs.Path.Splitting

/-!
# Paths behind paths

* `Path.value_evaluate_append`: behind a path that leads to a truthy value the walk goes on from it.
* `Path.value_evaluate_append_congr`: paths that select the same from every value select the same
  behind every path.
* `evaluate_append_dot`: two path texts joined by a dot select what the second one selects from what
  the first one selected, unless that is falsy.

The hypotheses of `evaluate_append_dot` exclude three cases: a first text that is not balanced, a
second text that begins with `root` (`fromRoot` looks one segment ahead), and a bare `root` that
stands for a falsy document (there is no step behind which a walk could end).
-/

namespace PathQuery

namespace Path

/-- Whether a leading `root` is taken for the document does not depend on what follows the path, if
that does not begin with `root` itself. -/
theorem fromRoot_append {p q : Path} (hp : p ≠ []) (hq : q.head? ≠ some (.key rootField))
    (v : Value) : (p ++ q).fromRoot v = p.fromRoot v ++ q := by
  obtain ⟨segment, rest, rfl⟩ := List.exists_cons_of_ne_nil hp
  cases segment with
  | index position => rfl
  | call op args => rfl
  | key name =>
    have hnext : (rest ++ q).head? = some (.key rootField) ↔
        rest.head? = some (.key rootField) := by
      cases rest with
      | nil => simpa using hq
      | cons next others => simp
    simp only [List.cons_append, fromRoot, hnext]
    split <;> rfl

theorem head?_call_ne_root {op : Operator} {args : List String} {rest : Path} :
    List.head? (Segment.call op args :: rest) ≠ some (.key rootField) := by
  rw [List.head?_cons]
  exact nofun

/-- Only a bare `root` leaves no segment to walk along. -/
theorem eq_root_of_fromRoot {p : Path} {v : Value} (hp : p ≠ []) (h : p.fromRoot v = []) :
    p = [.key rootField] := by
  unfold fromRoot at h
  split at h
  · split at h
    · rename_i hroot
      rw [h, hroot.1]
    · exact absurd h hp
  · exact absurd h hp

/-- Behind a path that makes a step, or from a truthy document, the walk goes on from the value that
the path leads to, unless this is falsy. -/
theorem value_evaluate_append_ite {p q : Path} {document : Value} (hp : p ≠ [])
    (hstart : p.fromRoot document ≠ [] ∨ document.isFalsy = false)
    (hq : q.head? ≠ some (.key rootField)) :
    ((p ++ q).evaluate document).value =
      if (p.evaluate document).value.isFalsy then (p.evaluate document).value
      else q.select (p.evaluate document).value := by
  rw [value_evaluate, value_evaluate, if_neg (List.append_ne_nil_of_left_ne_nil hp q), if_neg hp,
    fromRoot_append hp hq, select_append hstart]

/-- Behind a path that leads to a truthy value the walk goes on from this value. -/
theorem value_evaluate_append {p q : Path} {document : Value}
    (h : (p.evaluate document).value.isFalsy = false) (hq : q.head? ≠ some (.key rootField)) :
    ((p ++ q).evaluate document).value = q.select (p.evaluate document).value := by
  have hp : p ≠ [] := by
    rintro rfl
    cases h
  have hstart : p.fromRoot document ≠ [] ∨ document.isFalsy = false := by
    by_cases hempty : p.fromRoot document = []
    · rw [value_evaluate, if_neg hp, hempty, select_nil] at h
      exact .inr h
    · exact .inl hempty
  rw [value_evaluate_append_ite hp hstart hq, h]
  exact if_neg Bool.false_ne_true

theorem select_append_congr {q q' : Path} (h : ∀ v, q.select v = q'.select v) (p : Path)
    (v : Value) : (p ++ q).select v = (p ++ q').select v := by
  induction p generalizing v with
  | nil => exact h v
  | cons segment rest ih =>
    rw [List.cons_append, List.cons_append, select_cons, select_cons, ih]

/-- Paths that select the same from every value select the same behind every path. -/
theorem value_evaluate_append_congr {q q' : Path} (hne : q ≠ []) (hne' : q' ≠ [])
    (hq : q.head? ≠ some (.key rootField)) (hq' : q'.head? ≠ some (.key rootField))
    (h : ∀ v, q.select v = q'.select v) (p : Path) (document : Value) :
    ((p ++ q).evaluate document).value = ((p ++ q').evaluate document).value := by
  rw [value_evaluate, value_evaluate, if_neg (List.append_ne_nil_of_right_ne_nil p hne),
    if_neg (List.append_ne_nil_of_right_ne_nil p hne')]
  by_cases hp : p = []
  · rw [hp, List.nil_append, List.nil_append, fromRoot_of_head? hq, fromRoot_of_head? hq', h]
  · rw [fromRoot_append hp hq, fromRoot_append hp hq', select_append_congr h]

end Path

/-- A text with segments selects by `fromRoot` and `select`. -/
theorem evaluate_of_ne_nil {text : String} (h : Path.ofText text ≠ []) (document : Value) :
    evaluate document text = ((Path.ofText text).fromRoot document).select document := by
  rw [evaluate_eq, Path.value_evaluate, if_neg h]

/-- A path that does not begin with the document's own name is walked along as it is. -/
theorem evaluate_eq_select {text : String} (hne : Path.ofText text ≠ [])
    (hroot : (Path.ofText text).head? ≠ some (.key rootField)) (document : Value) :
    evaluate document text = (Path.ofText text).select document := by
  rw [evaluate_of_ne_nil hne, Path.fromRoot_of_head? hroot]

/-- Where the segments of a text are those of a path with others behind them, the walk goes on along
the others. -/
theorem evaluate_of_append {document : Value} {p text : String} {q : Path}
    (hpath : Path.ofText text = Path.ofText p ++ q)
    (h : (evaluate document p).isFalsy = false) (hq : q.head? ≠ some (.key rootField)) :
    evaluate document text = q.select (evaluate document p) := by
  rw [evaluate_eq] at h
  rw [evaluate_eq, hpath, Path.value_evaluate_append h hq, ← evaluate_eq]

/-- Following two paths joined by a dot is following the second one from where the first one led,
and a falsy value is where it ends. -/
theorem evaluate_append_dot (document : Value) {p q : String}
    (hclosed : (Scan.ofText p.toList).IsClosed)
    (hp : Path.ofText p ≠ []) (hq : Path.ofText q ≠ [])
    (hroot : (Path.ofText q).head? ≠ some (.key rootField))
    (hwhole : ¬(Path.ofText p = [.key rootField] ∧ document.isFalsy = true)) :
    evaluate document (p ++ "." ++ q) =
      if (evaluate document p).isFalsy then evaluate document p
      else evaluate (evaluate document p) q := by
  have hjoined : Path.ofText (p ++ "." ++ q) = Path.ofText p ++ Path.ofText q :=
    Path.ofText_append_dot hclosed q
  -- the early exit looks at a value only behind a step
  have hstart : (Path.ofText p).fromRoot document ≠ [] ∨ document.isFalsy = false := by
    by_cases hempty : (Path.ofText p).fromRoot document = []
    · have hbare := Path.eq_root_of_fromRoot hp hempty
      exact .inr (by simpa [hbare] using hwhole)
    · exact .inl hempty
  have hfirst := evaluate_of_ne_nil hp document
  have hsecond : evaluate (evaluate document p) q =
      (Path.ofText q).select (evaluate document p) := by
    rw [evaluate_of_ne_nil hq, Path.fromRoot_of_head? hroot]
  rw [evaluate_of_ne_nil (by rw [hjoined]; exact List.append_ne_nil_of_left_ne_nil hp _), hjoined,
    Path.fromRoot_append hp hroot, Path.select_append hstart, hsecond, ← hfirst]

/-- The first text is balanced only at its end, and its brackets are muted. -/
theorem evaluate_append_dot_find :
    let document : Value :=
      .obj [("users", .arr [.obj [("name", .str "B.o[b"), ("ages", .arr [.bool true])]])]
    let p := "users.find(name,'B.o[b')"
    let q := "ages[0]"
    (Scan.ofText p.toList).IsClosed ∧ Path.ofText p ≠ [] ∧ Path.ofText q ≠ [] ∧
      (Path.ofText q).head? ≠ some (.key rootField) ∧
      ¬(Path.ofText p = [.key rootField] ∧ document.isFalsy = true) ∧
      evaluate document (p ++ "." ++ q) =
        if (evaluate document p).isFalsy then evaluate document p
        else evaluate (evaluate document p) q := by
  intro document p q
  have hclosed : (Scan.ofText p.toList).IsClosed := by decide
  have hp : Path.ofText p ≠ [] := by decide
  have hq : Path.ofText q ≠ [] := by decide
  have hroot : (Path.ofText q).head? ≠ some (.key rootField) := by decide
  have hwhole : ¬(Path.ofText p = [.key rootField] ∧ document.isFalsy = true) := by decide
  exact ⟨hclosed, hp, hq, hroot, hwhole, evaluate_append_dot document hclosed hp hq hroot hwhole⟩

end PathQuery
