import Mathlib.Data.List.Forall2
import PathQuery.Proofs.Evaluation.Selection
import PathQuery.Proofs.Json.KeyOrder
import PathQuery.Proofs.Text.Padding

/-!
# Evaluation and the order of keys

`Value.Simulation` is a relation between values that is kept by lookups and by the early exit, that
agrees on clear literals, and that passes from elements to arrays. `Simulation.evaluate` shows that
it is kept along every parsed path. Sub-paths of a parsed path have no calls (`respects_of_noCall`),
which gives the calls of the path, and its literals are `Clear` (`clear_literal`).

`Value.Reordered`, equivalence up to the order of keys with distinct keys, is such a relation
(`simulation_reordered`). Renderings differ by the order of keys only where they hold a comma, and
no clear literal does. `evaluate_orderEquiv` draws the conclusion.
-/

namespace PathQuery

open List (Forall₂)

/-- A relation between values that following a parsed path preserves. -/
structure Value.Simulation (R : Value → Value → Prop) : Prop where
  null : R .null .null
  arr {vs ws : List Value} : Forall₂ R vs ws → R (.arr vs) (.arr ws)
  isFalsy_eq {v w : Value} : R v w → v.isFalsy = w.isFalsy
  field? {v w : Value} : R v w → ∀ name, Option.Rel R (v.field? name) (w.field? name)
  /-- Both are arrays, related element by element, or neither is. -/
  items {v w : Value} : R v w →
    (∃ vs ws, v = .arr vs ∧ w = .arr ws ∧ Forall₂ R vs ws) ∨
      (∀ items, v ≠ .arr items) ∧ ∀ items, w ≠ .arr items
  literal_iff {v w : Value} : R v w → ∀ {literal : String}, Segment.Clear literal →
    (String.ofList (Text.trim v.render) = literal ↔ String.ofList (Text.trim w.render) = literal)

/-- What the segment selects from related values is related. -/
def Segment.Respects (R : Value → Value → Prop) (segment : Segment) : Prop :=
  ∀ {v w : Value}, R v w → R (segment.select v) (segment.select w)

/-! ## Related lists and options -/

section

variable {α : Type} {R : α → α → Prop} {as bs : List α}

theorem rel_getElem? (h : Forall₂ R as bs) (i : Nat) : Option.Rel R as[i]? bs[i]? := by
  induction h generalizing i with
  | nil => exact .none
  | cons hhead _ ih =>
    cases i with
    | zero => exact .some hhead
    | succ i => exact ih i

/-- The first elements that satisfy a test, if related elements satisfy it alike. -/
theorem rel_find? {p : α → Bool} (h : Forall₂ R as bs) (hp : ∀ a b, R a b → p a = p b) :
    Option.Rel R (as.find? p) (bs.find? p) := by
  induction h with
  | nil => exact .none
  | @cons a b as bs hhead _ ih =>
    rw [List.find?_cons, List.find?_cons, hp a b hhead]
    split
    · exact .some hhead
    · exact ih

/-- A property of the left value may be added to the relation. -/
theorem rel_and_left {P : α → Prop} {a b : Option α} (hP : ∀ x ∈ a, P x) (h : Option.Rel R a b) :
    Option.Rel (fun x y => P x ∧ R x y) a b := by
  cases h with
  | none => exact .none
  | some hxy => exact .some ⟨hP _ rfl, hxy⟩

theorem isNone_eq_of_rel {a b : Option α} (h : Option.Rel R a b) : a.isNone = b.isNone := by
  cases h <;> rfl

end

namespace Value.Simulation

variable {R : Value → Value → Prop} (sim : Simulation R) {v w : Value}

include sim

/-! ## Single steps -/

/-- Null stands for none on both sides. -/
theorem getD {a b : Option Value} (h : Option.Rel R a b) : R (a.getD .null) (b.getD .null) := by
  cases h with
  | some hvalue => exact hvalue
  | none => exact sim.null

/-- Related values have related elements. -/
theorem item? (h : R v w) (position : Binary64) :
    Option.Rel R (v.item? position) (w.item? position) := by
  rcases sim.items h with ⟨vs, ws, rfl, rfl, hitems⟩ | ⟨hv, hw⟩
  · rw [Value.item?, Value.item?]
    cases position.toNat? with
    | none => exact .none
    | some i => exact rel_getElem? hitems i
  · rw [Value.item?_of_not_arr hv, Value.item?_of_not_arr hw]
    exact .none

theorem respects_key (name : String) : (Segment.key name).Respects R :=
  fun h => sim.getD (sim.field? h name)

theorem respects_index (position : Binary64) : (Segment.index position).Respects R :=
  fun h => sim.getD (sim.item? h position)

/-- Related values are spliced in by related elements. -/
theorem spliced (h : R v w) : Forall₂ R v.spliced w.spliced := by
  rcases sim.items h with ⟨vs, ws, rfl, rfl, hitems⟩ | ⟨hv, hw⟩
  · exact hitems
  · rw [Value.spliced_of_not_arr hv, Value.spliced_of_not_arr hw]
    exact .cons h .nil

/-! ## Walks -/

theorem select {path : Path} (hpath : ∀ segment ∈ path, segment.Respects R) (h : R v w) :
    R (path.select v) (path.select w) := by
  induction path generalizing v w with
  | nil => exact h
  | cons segment rest ih =>
    rw [List.forall_mem_cons] at hpath
    have hnext : R (segment.select v) (segment.select w) := hpath.1 h
    rw [Path.select_cons, Path.select_cons, sim.isFalsy_eq hnext]
    split
    · exact hnext
    · exact ih hpath.2 hnext

/-- Related documents treat a leading `root` alike. -/
theorem fromRoot_eq (path : Path) (h : R v w) : path.fromRoot v = path.fromRoot w := by
  have hroot : (v.field? rootField).isNone = (w.field? rootField).isNone :=
    isNone_eq_of_rel (sim.field? h rootField)
  unfold Path.fromRoot
  rw [hroot]

/-- An evaluation respects a simulation if its segments do. -/
theorem value_evaluate {path : Path} (hpath : ∀ segment ∈ path, segment.Respects R) (h : R v w) :
    R (path.evaluate v).value (path.evaluate w).value := by
  rw [Path.value_evaluate, Path.value_evaluate, sim.fromRoot_eq path h]
  split
  · exact sim.null
  · exact sim.select (fun segment hmem => hpath segment (Path.mem_of_mem_fromRoot hmem)) h

/-! ## Calls -/

variable {args : List String}

/-- Related elements are selected alike, by a sub-path that respects the simulation and a clear
literal. -/
theorem selects_eq (hsubpath : ∀ segment ∈ Path.ofText (Operator.subpath args), segment.Respects R)
    (hclear : ∀ literal ∈ args[1]?, Segment.Clear literal) (h : R v w) :
    Operator.selects args v = Operator.selects args w := by
  have hselected := sim.value_evaluate hsubpath h
  unfold Operator.selects matchesLiteral
  cases hliteral : args[1]? with
  | none => rfl
  | some literal =>
    have hiff := sim.literal_iff hselected (hclear literal hliteral)
    simp only [Traced.value_map, hiff]

/-- A call respects a simulation if its sub-path does and its literal is clear. -/
theorem respects_call (op : Operator)
    (hsubpath : ∀ segment ∈ Path.ofText (Operator.subpath args), segment.Respects R)
    (hclear : ∀ literal ∈ args[1]?, Segment.Clear literal) :
    (Segment.call op args).Respects R := by
  intro v w h
  rw [Segment.select, Segment.select]
  rcases sim.items h with ⟨vs, ws, rfl, rfl, hitems⟩ | ⟨hv, hw⟩
  · -- `find` and `filter` select the same positions on both sides
    have hselects : ∀ a b, R a b → Operator.selects args a = Operator.selects args b :=
      fun a b hab => sim.selects_eq hsubpath hclear hab
    cases op with
    | find =>
      rw [Operator.value_find, Operator.value_find]
      exact sim.getD (rel_find? hitems hselects)
    | filter =>
      rw [Operator.value_filter, Operator.value_filter]
      refine sim.arr (List.rel_filter ?_ hitems)
      intro a b hab
      show Operator.selects args a = true ↔ Operator.selects args b = true
      rw [hselects a b hab]
    | map =>
      rw [Operator.value_map, Operator.value_map]
      exact sim.arr (List.rel_map (fun a b hab => sim.value_evaluate hsubpath hab) hitems)
    | flat =>
      rw [Operator.value_flat, Operator.value_flat]
      exact sim.arr (List.rel_flatMap hitems fun a b hab => sim.spliced hab)
  · -- neither is an array, and null comes of both
    rw [Operator.value_of_not_arr op hv, Operator.value_of_not_arr op hw]
    exact sim.null

/-! ## Parsed paths -/

/-- A path without calls. -/
theorem respects_of_noCall {path : Path} (hpath : ∀ op args, Segment.call op args ∉ path) :
    ∀ segment ∈ path, segment.Respects R := by
  intro segment hmem
  cases segment with
  | key name => exact sim.respects_key name
  | index position => exact sim.respects_index position
  | call op args => exact absurd hmem (hpath op args)

omit sim in
theorem clear_subpath (h : ∀ arg ∈ args, Segment.Clear arg) :
    Segment.Clear (Operator.subpath args) := by
  cases args with
  | nil => exact nofun
  | cons arg rest => exact h arg List.mem_cons_self

/-- The sub-path of a parsed call has no calls, and so respects a simulation. -/
theorem respects_subpath {text : String} {op : Operator}
    (h : Segment.call op args ∈ Path.ofText text) :
    ∀ segment ∈ Path.ofText (Operator.subpath args), segment.Respects R :=
  sim.respects_of_noCall (Path.ofText_noCall (clear_subpath (Path.args_clear h)))

omit sim in
theorem clear_literal {text : String} {op : Operator}
    (h : Segment.call op args ∈ Path.ofText text) :
    ∀ literal ∈ args[1]?, Segment.Clear literal := by
  intro literal hliteral
  exact Path.args_clear h literal (List.mem_of_getElem? hliteral)

/-- Every segment of a parsed path respects a simulation. -/
theorem respects_ofText (text : String) :
    ∀ segment ∈ Path.ofText text, segment.Respects R := by
  intro segment hmem
  cases segment with
  | key name => exact sim.respects_key name
  | index position => exact sim.respects_index position
  -- what is called takes a sub-path, and that has no calls left
  | call op args => exact sim.respects_call op (sim.respects_subpath hmem) (clear_literal hmem)

/-- From related documents a path selects related values. -/
theorem evaluate (text : String) (h : R v w) : R (evaluate v text) (evaluate w text) := by
  rw [evaluate_eq, evaluate_eq]
  exact sim.value_evaluate (sim.respects_ofText text) h

/-- A call in a parsed path selects related elements alike. -/
theorem selects_eq_of_mem {text : String} {op : Operator}
    (hcall : Segment.call op args ∈ Path.ofText text) (h : R v w) :
    Operator.selects args v = Operator.selects args w :=
  sim.selects_eq (sim.respects_subpath hcall) (clear_literal hcall) h

end Value.Simulation

/-! ## Reordered documents -/

namespace Value

/-- What is asked of two documents: the same up to the order of keys, and no key twice. -/
def Reordered (v w : Value) : Prop := v.DistinctKeys ∧ v.OrderEquiv w

namespace Reordered

variable {v w : Value}

theorem field? (h : v.Reordered w) (name : String) :
    Option.Rel Reordered (v.field? name) (w.field? name) :=
  rel_and_left (h.1.field? name) (h.2.field? h.1 name)

theorem items (h : v.Reordered w) :
    (∃ vs ws, v = .arr vs ∧ w = .arr ws ∧ List.Forall₂ Reordered vs ws) ∨
      (∀ items, v ≠ .arr items) ∧ ∀ items, w ≠ .arr items := by
  obtain ⟨hd, hequiv⟩ := h
  cases hequiv with
  | @arr vs ws hitems =>
    have hrel := (List.forall₂_and_left vs ws).mpr ⟨distinctKeys_arr.mp hd, hitems⟩
    exact .inl ⟨vs, ws, rfl, rfl, hrel⟩
  | _ => exact .inr ⟨nofun, nofun⟩

/-- A literal that is not split matches a rendering without a comma only. -/
theorem comma_not_mem_of_literal {literal : String} (hclear : Segment.Clear literal)
    (h : String.ofList (Text.trim v.render) = literal) : ',' ∉ v.render := by
  intro hmem
  have htrim : ',' ∈ Text.trim v.render := Text.mem_trim hmem (by decide)
  have hliteral : ',' ∈ literal.toList := by rw [← h, String.toList_ofList]; exact htrim
  exact absurd (hclear ',' hliteral) (by decide)

/-- Values that differ in the order of keys match the same clear literals. -/
theorem literal_iff (h : v.Reordered w) {literal : String} (hclear : Segment.Clear literal) :
    String.ofList (Text.trim v.render) = literal ↔
      String.ofList (Text.trim w.render) = literal := by
  constructor
  · intro hv
    rw [← h.2.render_eq (.inl (comma_not_mem_of_literal hclear hv))]
    exact hv
  · intro hw
    rw [h.2.render_eq (.inr (comma_not_mem_of_literal hclear hw))]
    exact hw

end Reordered

/-- `Reordered` is a simulation. -/
theorem simulation_reordered : Simulation Reordered where
  null := ⟨by simp [DistinctKeys], .null⟩
  arr {vs ws} h := by
    have hitems := (List.forall₂_and_left vs ws).mp h
    exact ⟨distinctKeys_arr.mpr hitems.1, .arr hitems.2⟩
  isFalsy_eq h := h.2.isFalsy_eq
  field? := Reordered.field?
  items := Reordered.items
  literal_iff h _ hclear := h.literal_iff hclear

end Value

/-- Documents that differ in the order of keys only give results that differ in the order of keys
only, and the calls of the path select the same positions of arrays that differ in no more. That a
document has no key twice comes from reading it (`Value.distinctKeys_ofJson`). -/
theorem evaluate_orderEquiv {document document' : Value} (hd : document.DistinctKeys)
    (h : document.OrderEquiv document') (text : String) :
    (evaluate document text).OrderEquiv (evaluate document' text) ∧
      ∀ op args, Segment.call op args ∈ Path.ofText text → ∀ items items',
        (Value.arr items).DistinctKeys → (Value.arr items).OrderEquiv (.arr items') →
          items.map (Operator.selects args) = items'.map (Operator.selects args) := by
  constructor
  · have hresult := Value.simulation_reordered.evaluate text ⟨hd, h⟩
    exact hresult.2
  · intro op args hcall items items' hdistinct hequiv
    cases hequiv with
    | arr hitems =>
      have hrel := (List.forall₂_and_left _ _).mpr ⟨Value.distinctKeys_arr.mp hdistinct, hitems⟩
      have hselects := List.rel_map
        (fun v w hvw => Value.simulation_reordered.selects_eq_of_mem hcall hvw) hrel
      exact List.forall₂_eq_eq_eq ▸ hselects

/-- Inner fields swapped: the elements compared do not render alike, what is selected from them
does. -/
theorem evaluate_orderEquiv_filter :
    let ann := [("name", Value.str "Ann"), ("on", .bool true)]
    let ann' := [("on", .bool true), ("name", Value.str "Ann")]
    let bob := [("name", Value.str "Bob")]
    let document := Value.obj [("team", .arr [.obj ann, .obj bob])]
    let document' := Value.obj [("team", .arr [.obj ann', .obj bob])]
    let text := "team.filter(name,'Ann')"
    document.DistinctKeys ∧ document.OrderEquiv document' ∧
      (Value.obj ann).render ≠ (Value.obj ann').render ∧
      (evaluate document text).OrderEquiv (evaluate document' text) ∧
      ∀ items items', (Value.arr items).DistinctKeys → (Value.arr items).OrderEquiv (.arr items') →
        items.map (Operator.selects ["name", "Ann"]) =
          items'.map (Operator.selects ["name", "Ann"]) := by
  intro ann ann' bob document document' text
  have hd : document.DistinctKeys := by
    simp [document, ann, bob, Value.DistinctKeys, Value.DistinctKeysItems,
      Value.DistinctKeysFields, Fields.Distinct, Fields.keys]
  have hann : (Value.obj ann).OrderEquiv (.obj ann') := .of_perm (.swap _ _ _)
  have hteam : (Value.arr [.obj ann, .obj bob]).OrderEquiv (.arr [.obj ann', .obj bob]) :=
    .arr (.cons hann (.cons (.refl _) .nil))
  have h : document.OrderEquiv document' := .obj (.cons (.intro "team" hteam) .nil) (.refl _)
  have hcall : Segment.call .filter ["name", "Ann"] ∈ Path.ofText text := by decide
  have hboth := evaluate_orderEquiv hd h text
  exact ⟨hd, h, by decide, hboth.1, hboth.2 .filter ["name", "Ann"] hcall⟩

end PathQuery
