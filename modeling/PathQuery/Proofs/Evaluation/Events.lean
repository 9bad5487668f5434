import PathQuery.Proofs.Evaluation.Steps

/-!
# What an evaluation notes

`Path.steps` lists the steps of an evaluation by plain lookups, and `Step.events` says what a step
notes: a call what the operator meets, and any step that it has left a falsy value.

* `Path.events_evaluate`: an evaluation notes the events of its steps, in order.
* `Path.events_evaluate_of_noCall`: without calls nothing is noted but how the walk ends
  (`Path.closing`). This is what a call notes of each element that it visits (`Operator.visited`),
  since sub-paths of a parsed path have no calls.
* `Step.events_of_mem_notArray`: an operator that meets something other than an array leaves null,
  so its step is the last one.
* `events_follow` puts these together for a path text.
-/

namespace PathQuery

/-! ## Going through a list -/

namespace Traced

variable {α β : Type}

/-- `collect` notes what the function notes for each element. -/
theorem events_collect (f : α → Traced β) (as : List α) :
    (collect f as).events = as.flatMap fun a => (f a).events := by
  induction as with
  | nil => rfl
  | cons a rest ih => rw [collect, events_bind, events_map, ih, List.flatMap_cons]

/-- `keep` notes what the test notes for each element. -/
theorem events_keep (p : α → Traced Bool) (as : List α) :
    (keep p as).events = as.flatMap fun a => (p a).events := by
  induction as with
  | nil => rfl
  | cons a rest ih => rw [keep, events_bind, events_map, ih, List.flatMap_cons]

/-- The elements are tested up to the first for which the test holds, that one included. -/
theorem events_first? (p : α → Traced Bool) (as : List α) :
    (first? p as).events =
      (as.take (as.findIdx (fun a => (p a).value) + 1)).flatMap fun a => (p a).events := by
  induction as with
  | nil => rfl
  | cons a rest ih =>
    rw [first?, events_bind, List.findIdx_cons]
    cases (p a).value with
    | true => simp
    | false => simp [ih]

end Traced

/-! ## Steps -/

/-- A step of a walk: the value that it starts from, and the segment that it is taken along. -/
structure Step where
  before : Value
  segment : Segment

/-- The value that the step leaves. -/
def Step.after (step : Step) : Value := step.segment.select step.before

namespace Path

/-- The steps of a walk from the value. The first one that leaves a falsy value is the last. -/
def stepsFrom : Path → Value → List Step
  | [], _ => []
  | segment :: rest, v =>
    ⟨v, segment⟩ ::
      if (segment.select v).isFalsy then [] else stepsFrom rest (segment.select v)

/-- The steps of an evaluation. A leading `root` that stands for the document is none. -/
def steps (path : Path) (document : Value) : List Step :=
  (path.fromRoot document).stepsFrom document

/-- What is noted at the end of an evaluation: the last segment, if there was a step at all and what
it led to is falsy. -/
def closing (path : Path) (document : Value) : List Event :=
  match (path.steps document).getLast? with
  | some last => if (path.evaluate document).value.isFalsy then [.stopped last.segment] else []
  | none => []

end Path

/-- The elements for which a call evaluates its sub-path. Without a literal there is nothing to
compare, and behind the first match there is nothing left to find. -/
def Operator.visited (op : Operator) (args : List String) (items : List Value) : List Value :=
  match op with
  | map => items
  | filter => if 2 ≤ args.length then items else []
  | find => if 2 ≤ args.length then items.take (items.findIdx (selects args) + 1) else []
  | flat => []

namespace Step

/-- What the step notes before it is known what it leaves. -/
def meets (step : Step) : List Event :=
  match step.segment, step.before with
  | .call op args, .arr items =>
    .parsed (Operator.subpath args) (Path.ofText (Operator.subpath args)).length ::
      (op.visited args items).flatMap (Path.ofText (Operator.subpath args)).closing
  | .call op _, _ => [.notArray op]
  | _, _ => []

/-- All that the step notes. -/
def events (step : Step) : List Event :=
  step.meets ++ if step.after.isFalsy then [.stopped step.segment] else []

end Step

/-! ## Walks -/

/-- What an operator notes when the segment calls it; lookups note nothing. -/
def Segment.notes : Segment → Value → List Event
  | call op args, v => (op.apply args v).events
  | _, _ => []

/-- What is noted at the segment is what the steps along it are said to note. -/
def Segment.Traces (segment : Segment) : Prop :=
  ∀ v, segment.notes v = Step.meets ⟨v, segment⟩

/-- A step notes what its segment notes. -/
theorem Focus.events_step (focus : Focus) (segment : Segment) :
    (focus.step segment).events = segment.notes focus.value := by
  cases segment <;> rfl

namespace Path

/-- A walk notes the events of its steps. -/
theorem events_walkFrom {path : Path} (h : ∀ segment ∈ path, segment.Traces) (focus : Focus) :
    (path.walkFrom focus).events = (path.stepsFrom focus.value).flatMap Step.events := by
  induction path generalizing focus with
  | nil => rfl
  | cons segment rest ih =>
    rw [List.forall_mem_cons] at h
    have hnotes : (focus.step segment).events = Step.meets ⟨focus.value, segment⟩ := by
      rw [Focus.events_step, h.1]
    have hnext := Focus.value_step focus segment
    rw [walkFrom_cons, Traced.events_bind, stepsFrom, List.flatMap_cons, Step.events, Step.after,
      hnotes, hnext]
    split
    · simp
    · rw [ih h.2, hnext, List.append_nil]

/-- An evaluation notes the events of its steps. -/
theorem events_evaluate {path : Path} (h : ∀ segment ∈ path, segment.Traces) (document : Value) :
    (path.evaluate document).events = (path.steps document).flatMap Step.events := by
  by_cases hempty : path = []
  · rw [hempty]
    rfl
  · have hrest : ∀ segment ∈ path.fromRoot document, segment.Traces :=
      fun segment hmem => h segment (mem_of_mem_fromRoot hmem)
    rw [evaluate_eq_walkFrom hempty, Traced.events_map, events_walkFrom hrest]
    rfl

/-! ## Paths without calls -/

theorem stepsFrom_ne_nil {path : Path} (h : path ≠ []) (v : Value) : path.stepsFrom v ≠ [] := by
  obtain ⟨segment, rest, rfl⟩ := List.exists_cons_of_ne_nil h
  exact List.cons_ne_nil _ _

/-- Lookups note nothing until the last of them leaves a falsy value. -/
theorem flatMap_events_of_noCall {path : Path} (h : ∀ op args, Segment.call op args ∉ path)
    (v : Value) :
    (path.stepsFrom v).flatMap Step.events =
      match (path.stepsFrom v).getLast? with
      | some last => if (path.select v).isFalsy then [.stopped last.segment] else []
      | none => [] := by
  induction path generalizing v with
  | nil => rfl
  | cons segment rest ih =>
    have hmeets : Step.meets ⟨v, segment⟩ = [] := by
      cases segment with
      | call op args => exact absurd List.mem_cons_self (h op args)
      | _ => rfl
    rw [stepsFrom, select_cons, List.flatMap_cons, Step.events, hmeets, Step.after]
    by_cases hfalsy : (segment.select v).isFalsy = true
    · simp [hfalsy]
    · have hrest := ih (fun op args hmem => h op args (List.mem_cons_of_mem _ hmem))
        (segment.select v)
      simp only [hfalsy, Bool.false_eq_true, if_false, List.nil_append, hrest]
      -- the last step is one of the rest, if there is a rest
      by_cases hnil : rest = []
      · subst hnil
        simp [stepsFrom, hfalsy]
      · obtain ⟨first, others, hsteps⟩ :=
          List.exists_cons_of_ne_nil (stepsFrom_ne_nil hnil (segment.select v))
        rw [hsteps, List.getLast?_cons_cons]

/-- From a path without calls nothing is heard but how it ends. -/
theorem events_evaluate_of_noCall {path : Path} (h : ∀ op args, Segment.call op args ∉ path)
    (document : Value) : (path.evaluate document).events = path.closing document := by
  have htraces : ∀ segment ∈ path, segment.Traces := by
    intro segment hmem
    cases segment with
    | call op args => exact absurd hmem (h op args)
    | _ => exact fun _ => rfl
  have hrest : ∀ op args, Segment.call op args ∉ path.fromRoot document :=
    fun op args hmem => h op args (mem_of_mem_fromRoot hmem)
  rw [events_evaluate htraces, steps, flatMap_events_of_noCall hrest, closing, steps,
    value_evaluate]
  by_cases hempty : path = []
  · rw [hempty]
    rfl
  · rw [if_neg hempty]

end Path

/-! ## Calls -/

theorem Path.events_parse (text : String) :
    (parse text).events = [.parsed text (ofText text).length] := rfl

/-- Comparing with a literal notes what selecting notes. -/
theorem events_matchesLiteral (select : Value → Traced Value) (literal : String) (item : Value) :
    (matchesLiteral select (some literal) item).events = (select item).events := rfl

namespace Operator

variable {args : List String}

/-- A call evaluates its sub-path for the elements that it visits, and for no others. -/
theorem events_run (op : Operator) (items : List Value) :
    (op.run (Path.ofText (subpath args)).evaluate args[1]? items).events =
      (op.visited args items).flatMap fun item =>
        ((Path.ofText (subpath args)).evaluate item).events := by
  -- without a literal nothing can match, and no sub-path is followed
  have hnone (hlength : ¬2 ≤ args.length) : args[1]? = none :=
    List.getElem?_eq_none_iff.mpr (by omega)
  have hsome (hlength : 2 ≤ args.length) : args[1]? = some args[1] :=
    List.getElem?_eq_getElem (by omega)
  cases op with
  | map => rw [run, Traced.events_map, Traced.events_collect, visited]
  | flat => rfl
  | filter =>
    rw [run, Traced.events_map, Traced.events_keep, visited]
    split
    · rename_i hlength
      simp only [hsome hlength, events_matchesLiteral]
    · rename_i hlength
      rw [hnone hlength]
      exact List.flatMap_eq_nil_iff.mpr fun _ _ => rfl
  | find =>
    rw [run, Traced.events_map, Traced.events_first?, visited]
    split
    · rename_i hlength
      unfold selects
      simp only [hsome hlength, events_matchesLiteral]
    · rename_i hlength
      rw [hnone hlength]
      exact List.flatMap_eq_nil_iff.mpr fun _ _ => rfl

/-- What a call notes whose sub-path has no calls of its own. -/
theorem traces_call (op : Operator)
    (h : ∀ op' args', Segment.call op' args' ∉ Path.ofText (subpath args)) :
    (Segment.call op args).Traces := by
  intro v
  rw [Segment.notes]
  by_cases harr : ∃ items, v = .arr items
  · obtain ⟨items, rfl⟩ := harr
    have hclosing : (fun item => ((Path.ofText (subpath args)).evaluate item).events) =
        (Path.ofText (subpath args)).closing :=
      funext (Path.events_evaluate_of_noCall h)
    rw [apply_arr, Traced.events_bind, Path.value_parse, Path.events_parse, events_run, hclosing]
    rfl
  · have hother : ∀ items, v ≠ .arr items := fun items hitems => harr ⟨items, hitems⟩
    rw [apply_of_not_arr op args hother]
    cases v with
    | arr items => exact absurd rfl (hother items)
    | _ => rfl

end Operator

/-- A parsed path traces all along. -/
theorem Path.traces_ofText (text : String) : ∀ segment ∈ ofText text, segment.Traces := by
  intro segment hmem
  cases segment with
  | call op args =>
    have hclear : Segment.Clear (Operator.subpath args) := by
      cases args with
      | nil => exact nofun
      | cons arg rest => exact args_clear hmem arg List.mem_cons_self
    exact Operator.traces_call op (ofText_noCall hclear)
  | _ => exact fun _ => rfl

/-! ## The end of a trace -/

/-- Every step but the last one leaves a truthy value. -/
theorem Path.truthy_of_mem_dropLast {path : Path} {v : Value} {step : Step}
    (h : step ∈ (path.stepsFrom v).dropLast) : step.after.isFalsy = false := by
  induction path generalizing v with
  | nil => cases h
  | cons segment rest ih =>
    rw [stepsFrom] at h
    by_cases hfalsy : (segment.select v).isFalsy = true
    · rw [if_pos hfalsy] at h
      cases h
    · rw [if_neg hfalsy] at h
      by_cases hnil : stepsFrom rest (segment.select v) = []
      · rw [hnil] at h
        cases h
      · rw [List.dropLast_cons_of_ne_nil hnil] at h
        rcases List.mem_cons.mp h with rfl | hrest
        · exact Bool.eq_false_iff.mpr hfalsy
        · exact ih hrest

/-- A step that leaves a falsy value is the last one. -/
theorem Path.stepsFrom_of_falsy {path : Path} {v : Value} {step : Step}
    (h : step ∈ path.stepsFrom v) (hfalsy : step.after.isFalsy = true) :
    path.stepsFrom v = (path.stepsFrom v).dropLast ++ [step] := by
  have hne : path.stepsFrom v ≠ [] := List.ne_nil_of_mem h
  have hsplit : (path.stepsFrom v).dropLast ++ [(path.stepsFrom v).getLast hne] =
      path.stepsFrom v := List.dropLast_concat_getLast hne
  rw [← hsplit, List.mem_append, List.mem_singleton] at h
  rcases h with hearlier | hlast
  · rw [truthy_of_mem_dropLast hearlier] at hfalsy
    cases hfalsy
  · rw [hlast, hsplit]

/-- `closing` holds nothing but the end of a walk. -/
theorem Path.eq_stopped_of_mem_closing {path : Path} {document : Value} {e : Event}
    (h : e ∈ path.closing document) : ∃ segment, e = .stopped segment := by
  unfold closing at h
  split at h
  · rename_i last _
    split at h
    · exact ⟨last.segment, List.mem_singleton.mp h⟩
    · cases h
  · cases h

/-- An operator that meets something other than an array leaves null, and there the walk stops. -/
theorem Step.events_of_mem_notArray {step : Step} {op : Operator} (h : .notArray op ∈ step.events) :
    ∃ args, step.after.isFalsy = true ∧
      step.events = [.notArray op, .stopped (.call op args)] := by
  have hmeets : .notArray op ∈ step.meets := by
    rw [events, List.mem_append] at h
    refine h.resolve_right fun hstopped => ?_
    split at hstopped
    · cases List.mem_singleton.mp hstopped
    · cases hstopped
  obtain ⟨v, segment⟩ := step
  cases segment with
  | key name => cases hmeets
  | index position => cases hmeets
  | call op' args =>
    by_cases harr : ∃ items, v = .arr items
    · -- on an array nothing else is heard than of the sub-path
      obtain ⟨items, rfl⟩ := harr
      rw [meets] at hmeets
      rcases List.mem_cons.mp hmeets with hparsed | hclosing
      · cases hparsed
      · obtain ⟨item, -, hitem⟩ := List.mem_flatMap.mp hclosing
        obtain ⟨segment, hsegment⟩ := Path.eq_stopped_of_mem_closing hitem
        cases hsegment
    · -- the operator has left null, which is falsy
      have hother : ∀ items, v ≠ .arr items := fun items hitems => harr ⟨items, hitems⟩
      have hnull : Step.after ⟨v, .call op' args⟩ = .null := Operator.value_of_not_arr op' hother
      have hown : Step.meets ⟨v, .call op' args⟩ = [.notArray op'] := by
        cases v with
        | arr items => exact absurd rfl (hother items)
        | _ => rfl
      rw [hown, List.mem_singleton] at hmeets
      cases hmeets
      refine ⟨args, by rw [hnull]; rfl, ?_⟩
      rw [events, hown, hnull]
      rfl

/-- An evaluation notes the path text that it takes apart, and then what each of its steps notes, in
order. Every step but the last one leaves a truthy value, so nothing is noted behind a step that
does not. An operator that meets something other than an array is heard of once, and what follows it
is that its step was the last. -/
theorem events_follow (document : Value) (text : String) :
    (document.follow text).events =
        .parsed text (Path.ofText text).length ::
          ((Path.ofText text).steps document).flatMap Step.events ∧
      (∀ step ∈ ((Path.ofText text).steps document).dropLast, step.after.isFalsy = false) ∧
      ∀ op, .notArray op ∈ (document.follow text).events →
        ∃ earlier args,
          (document.follow text).events =
            earlier ++ [.notArray op, .stopped (.call op args)] ∧
          ∀ op', .notArray op' ∉ earlier := by
  have hevents : (document.follow text).events =
      .parsed text (Path.ofText text).length ::
        ((Path.ofText text).steps document).flatMap Step.events := by
    rw [Value.follow, Traced.events_bind, Path.value_parse, Path.events_parse,
      Path.events_evaluate (Path.traces_ofText text), List.singleton_append]
  have htruthy : ∀ step ∈ ((Path.ofText text).steps document).dropLast,
      step.after.isFalsy = false := fun _ hstep => Path.truthy_of_mem_dropLast hstep
  refine ⟨hevents, htruthy, ?_⟩
  intro op hop
  rw [hevents] at hop ⊢
  obtain ⟨step, hstep, hnotes⟩ : ∃ step ∈ (Path.ofText text).steps document,
      .notArray op ∈ step.events := by
    rcases List.mem_cons.mp hop with hparsed | hsteps
    · cases hparsed
    · exact List.mem_flatMap.mp hsteps
  -- the step has left a falsy value, so it is the last one
  obtain ⟨args, hfalsy, hown⟩ := Step.events_of_mem_notArray hnotes
  have hsplit : (Path.ofText text).steps document =
      ((Path.ofText text).steps document).dropLast ++ [step] :=
    Path.stepsFrom_of_falsy hstep hfalsy
  refine ⟨.parsed text (Path.ofText text).length ::
    ((Path.ofText text).steps document).dropLast.flatMap Step.events, args, ?_, ?_⟩
  · rw [← hown, List.cons_append, ← List.flatMap_singleton Step.events step, ← List.flatMap_append,
      ← hsplit]
  · intro op' hop'
    rcases List.mem_cons.mp hop' with hparsed | hsteps
    · cases hparsed
    · -- an earlier step would have left a falsy value too
      obtain ⟨step', hstep', hnotes'⟩ := List.mem_flatMap.mp hsteps
      obtain ⟨-, hfalsy', -⟩ := Step.events_of_mem_notArray hnotes'
      rw [htruthy step' hstep'] at hfalsy'
      cases hfalsy'

/-- One element has no name, which is noted and does not end the walk; a text is not an array, which
does. The last segment is never reached. -/
theorem events_follow_flat :
    let document := Value.obj [("users", .arr [.obj [("name", .str "Ann")], .obj []])]
    let text := "users.map(name)[0].flat().age"
    let earlier : List Event := [.parsed text 5, .parsed "name" 1, .stopped (.key "name")]
    .notArray .flat ∈ (document.follow text).events ∧
      (document.follow text).events = earlier ++ [.notArray .flat, .stopped (.call .flat [])] ∧
      (∀ op', .notArray op' ∉ earlier) ∧
      ((Path.ofText text).steps document).length = 4 := by
  intro document text earlier
  obtain ⟨hevents, htruthy, honce⟩ := events_follow document text
  have hop : .notArray .flat ∈ (document.follow text).events := by decide +kernel
  obtain ⟨noted, args, hsplit, hnone⟩ := honce .flat hop
  have hconcrete : (document.follow text).events =
      earlier ++ [.notArray .flat, .stopped (.call .flat [])] := by decide +kernel
  have hnoted : noted = earlier := (List.append_inj' (hsplit.symm.trans hconcrete) rfl).1
  rw [hnoted] at hnone
  exact ⟨hop, hconcrete, hnone, by decide +kernel⟩

end PathQuery
