import PathQuery.Proofs.Evaluation.Selection

/-!
# Steps of a walk

`Focus.step` is one step of a walk, and `Path.walkFrom_cons` the walk by its steps.
`Focus.value_step` shows that a step leads to what its segment selects, whether the value is shared
or built.

`Focus.stepOwning` makes a value the walk's own behind any of its steps. `values_of_steps` says that
runs, walks and evaluations come to the same values with and without it.
-/

namespace PathQuery

namespace Focus

/-- The step that a walk takes along a segment. -/
def step (focus : Focus) : Segment → Traced Focus
  | .key name => pure (focus.key name)
  | .index position => pure (focus.index position)
  | .call op args => built <$> op.apply args focus.value

/-- The step leads to what the segment selects, whether the value is shared or not. -/
theorem value_step (focus : Focus) (segment : Segment) :
    (focus.step segment).value.value = segment.select focus.value := by
  cases segment with
  | key name => exact value_key name focus
  | index position => exact value_index position focus
  | call op args => rfl

end Focus

/-! ## Walking by steps -/

namespace Path

/-- The walk in which the calls are those of the operators. -/
def walkFrom (path : Path) (focus : Focus) : Traced Focus :=
  path.walk (fun op args _ v => op.apply args v) focus

/-- A walk is a step, and a walk along the rest unless the step has left a falsy value. -/
theorem walkFrom_cons (segment : Segment) (rest : Path) (focus : Focus) :
    walkFrom (segment :: rest) focus = (do
      let next ← focus.step segment
      if next.value.isFalsy then
        Traced.note (.stopped segment)
        return next
      else walkFrom rest next) := by
  cases segment <;> rfl

/-- Evaluating a path that is not empty is a walk from the document. -/
theorem evaluate_eq_walkFrom {path : Path} (h : path ≠ []) (document : Value) :
    path.evaluate document =
      Focus.value <$> (path.fromRoot document).walkFrom (.shared document) := by
  have hempty : path.isEmpty = false := List.isEmpty_eq_false_iff.mpr h
  rw [evaluate, evaluateWith, hempty]
  rfl

theorem value_walkFrom (path : Path) (focus : Focus) :
    (path.walkFrom focus).value.value = path.select focus.value :=
  value_walk (fun _ _ _ _ => rfl) focus

end Path

/-! ## Values of one's own -/

namespace Focus

/-- The value in focus, now held as the walk's own. -/
def own (focus : Focus) : Focus := built focus.value

/-- A step behind which the value becomes the walk's own where `owns` says so of its number. -/
def stepOwning (owns : Nat → Bool) (focus : Focus) (numbered : Segment × Nat) : Focus :=
  let next := (focus.step numbered.1).value
  if owns numbered.2 then next.own else next

/-- A step leads to what its segment selects, wherever the value becomes its own. -/
theorem value_stepOwning (owns : Nat → Bool) (focus : Focus) (numbered : Segment × Nat) :
    (focus.stepOwning owns numbered).value = numbered.1.select focus.value := by
  unfold stepOwning
  split
  · exact value_step focus numbered.1
  · exact value_step focus numbered.1

/-- The walk with its early exit, by such steps. -/
def walkOwning (owns : Nat → Bool) : List (Segment × Nat) → Focus → Focus
  | [], focus => focus
  | numbered :: rest, focus =>
    let next := focus.stepOwning owns numbered
    if next.value.isFalsy then next else walkOwning owns rest next

theorem value_walkOwning (owns : Nat → Bool) (numbered : List (Segment × Nat)) (focus : Focus) :
    (walkOwning owns numbered focus).value = Path.select (numbered.map Prod.fst) focus.value := by
  induction numbered generalizing focus with
  | nil => rfl
  | cons first rest ih =>
    have hstep := value_stepOwning owns focus first
    rw [walkOwning, List.map_cons, Path.select_cons, ← hstep]
    split
    · rfl
    · exact ih (focus.stepOwning owns first)

end Focus

/-- What the path selects from the document when values become the walk's own as `owns` says. -/
def Path.evaluateOwning (owns : Nat → Bool) (path : Path) (document : Value) : Value :=
  if path.isEmpty then .null
  else (Focus.walkOwning owns (path.fromRoot document).zipIdx (.shared document)).value

/-! ## Runs -/

/-- Where one state stands for another before a step, and does so behind every step, the states of
two runs stand for each other from first to last. -/
theorem map_scanl_of_step {α σ τ : Type} {view : σ → τ} {step : σ → α → σ} {plain : τ → α → τ}
    (h : ∀ s a, view (step s a) = plain (view s) a) (as : List α) (s : σ) :
    (as.scanl step s).map view = as.scanl plain (view s) := by
  induction as generalizing s with
  | nil => simp only [List.scanl_nil, List.map_cons, List.map_nil]
  | cons a rest ih =>
    rw [List.scanl_cons, List.scanl_cons, List.map_cons, ih, h]

/-- A run by steps comes to the values that plain lookups and operators come to, all along the
segments; so it does when values become its own anywhere on the way; and neither the walk with its
early exit nor what is selected by a path depends on that. -/
theorem values_of_steps (document : Value) :
    (∀ path : Path,
      (path.scanl (fun focus segment => (focus.step segment).value) (.shared document)).map
        Focus.value = path.scanl (fun v segment => segment.select v) document) ∧
    (∀ (owns : Nat → Bool) (path : Path),
      (path.zipIdx.scanl (Focus.stepOwning owns) (.shared document)).map Focus.value =
        path.scanl (fun v segment => segment.select v) document) ∧
    (∀ path : Path,
      (path.walkFrom (.shared document)).value.value = path.select document) ∧
    ∀ (owns : Nat → Bool) (text : String),
      (Path.ofText text).evaluateOwning owns document = evaluate document text := by
  refine ⟨?_, ?_, ?_, ?_⟩
  · intro path
    exact map_scanl_of_step Focus.value_step path (Focus.shared document)
  · intro owns path
    have hfst : path.zipIdx.map Prod.fst = path := List.zipIdx_map_fst 0 path
    calc (path.zipIdx.scanl (Focus.stepOwning owns) (.shared document)).map Focus.value
        = path.zipIdx.scanl (fun v numbered => numbered.1.select v) document :=
          map_scanl_of_step (Focus.value_stepOwning owns) path.zipIdx (Focus.shared document)
      _ = (path.zipIdx.map Prod.fst).scanl (fun v segment => segment.select v) document := by
          rw [List.scanl_map]
      _ = path.scanl (fun v segment => segment.select v) document := by rw [hfst]
  · intro path
    exact path.value_walkFrom (.shared document)
  · intro owns text
    have hfst := List.zipIdx_map_fst 0 ((Path.ofText text).fromRoot document)
    rw [evaluate_eq, Path.value_evaluate, Path.evaluateOwning, Focus.value_walkOwning, hfst]
    simp only [List.isEmpty_iff]
    rfl

end PathQuery
