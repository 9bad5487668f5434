import PathQuery.Proofs.Evaluation.Selection
import PathQuery.Proofs.Json.Parts

/-!
# Rendering without nesting

`Value.cells` are the texts that the rendering of a value has between its commas: one for a value
that is not an array, an empty one for the empty array, and those of its elements for any other.

* `Value.render_eq_cells`: a value renders as its cells joined by commas.
* `Value.render_flatMap_eq_iff`: `flat` takes the cells of empty arrays away, and only a single one
  has no comma next to it.
* `render_forgets_nesting` puts the two together.
-/

namespace PathQuery

namespace Value

mutual
/-- The texts that the rendering of a value puts commas between. -/
def cells : Value → List (List Char)
  | arr [] => [[]]
  | arr (v :: rest) => cells v ++ cellsItems rest
  | v => [v.render]

/-- The cells of the elements, in order. -/
def cellsItems : List Value → List (List Char)
  | [] => []
  | v :: rest => cells v ++ cellsItems rest
end

/-! ## Cells with commas -/

/-- Each cell of the elements stands behind a comma of its own. -/
theorem renderItems_of_forall {items : List Value}
    (h : ∀ v ∈ items, ',' :: v.render = v.cells.flatMap (',' :: ·)) :
    renderItems items = (cellsItems items).flatMap (',' :: ·) := by
  induction items with
  | nil => rfl
  | cons v rest ih =>
    rw [List.forall_mem_cons] at h
    rw [renderItems, cellsItems, List.flatMap_append, ← h.1, ← ih h.2, List.cons_append]

/-- Each cell of a value stands behind a comma of its own. -/
theorem comma_render (v : Value) : ',' :: v.render = v.cells.flatMap (',' :: ·) := by
  induction v with
  | arr items ih =>
    cases items with
    | nil => rfl
    | cons v rest =>
      -- the first element has no comma of its own, it takes the one in front of the array
      have hitems := renderItems_of_forall ih
      rwa [cellsItems, renderItems] at hitems
  | _ => exact (List.append_nil _).symm

/-- Joined texts with one more comma in front. -/
theorem comma_intercalate {cells : List (List Char)} (h : cells ≠ []) :
    ',' :: [','].intercalate cells = cells.flatMap (',' :: ·) := by
  induction cells with
  | nil => exact absurd rfl h
  | cons cell rest ih =>
    cases rest with
    | nil => rw [List.intercalate_singleton, List.flatMap_singleton]
    | cons next others =>
      rw [List.flatMap_cons, ← ih (List.cons_ne_nil _ _), List.intercalate_cons_cons,
        List.append_assoc, List.singleton_append, List.cons_append]

theorem cells_ne_nil (v : Value) : v.cells ≠ [] := by
  intro h
  have hrender := v.comma_render
  rw [h] at hrender
  exact absurd hrender (List.cons_ne_nil _ _)

/-- A value renders as its cells with commas between them. -/
theorem render_eq_cells (v : Value) : v.render = [','].intercalate v.cells := by
  have hcells := v.comma_render
  rw [← comma_intercalate v.cells_ne_nil] at hcells
  exact List.tail_eq_of_cons_eq hcells

/-! ## One level less -/

/-- An array renders as its elements behind their commas, without the first comma. -/
theorem render_arr_eq_tail (items : List Value) :
    (arr items).render = (renderItems items).tail := by
  cases items with
  | nil => rfl
  | cons v rest => rw [render, renderItems, List.tail_cons]

theorem renderItems_append (vs ws : List Value) :
    renderItems (vs ++ ws) = renderItems vs ++ renderItems ws := by
  induction vs with
  | nil => rfl
  | cons v vs ih =>
    rw [List.cons_append, renderItems, renderItems, ih, List.cons_append, List.append_assoc]

/-- An empty array leaves nothing in its place, and every other value its rendering. -/
theorem renderItems_spliced (v : Value) :
    renderItems v.spliced = if v = arr [] then [] else ',' :: v.render := by
  split
  · rename_i hempty
    rw [hempty]
    rfl
  · rename_i hne
    cases v with
    | arr items =>
      cases items with
      | nil => exact absurd rfl hne
      | cons v rest => rfl
    | _ => exact congrArg _ (List.append_nil _)

/-- Splicing takes the empty arrays away, and nothing else is seen. -/
theorem renderItems_flatMap (items : List Value) :
    renderItems (items.flatMap spliced) = renderItems (items.filter (· ≠ arr [])) := by
  induction items with
  | nil => rfl
  | cons v rest ih =>
    rw [List.flatMap_cons, renderItems_append, renderItems_spliced, ih, List.filter_cons]
    by_cases h : v = arr [] <;> simp [h, renderItems]

/-- Whatever is left out of a list of elements leaves out a comma at least. -/
theorem length_renderItems_of_sublist {vs ws : List Value} (h : vs.Sublist ws) :
    (renderItems vs).length + (ws.length - vs.length) ≤ (renderItems ws).length := by
  induction h with
  | slnil => exact Nat.le_refl _
  | cons w hsub ih =>
    have hle := hsub.length_le
    rw [renderItems, List.length_cons, List.length_cons, List.length_append]
    omega
  | cons_cons w hsub ih =>
    rw [renderItems, renderItems]
    simp only [List.length_cons, List.length_append]
    omega

/-- Flattening an array is not seen in its rendering, unless an empty array was next to a comma. -/
theorem render_flatMap_eq_iff (items : List Value) :
    (arr (items.flatMap spliced)).render = (arr items).render ↔
      arr [] ∉ items ∨ items = [arr []] := by
  rw [render_arr_eq_tail, render_arr_eq_tail, renderItems_flatMap]
  constructor
  · intro h
    rw [Decidable.or_iff_not_imp_left, Decidable.not_not]
    intro hmem
    -- at least one comma goes with the empty arrays
    have hlost : (items.filter (· ≠ arr [])).length < items.length :=
      List.length_filter_lt_length_iff_exists.mpr ⟨arr [], hmem, by simp⟩
    have hshorter := length_renderItems_of_sublist (items.filter_sublist (p := (· ≠ arr [])))
    have hlong := length_renderItems_of_sublist items.nil_sublist
    have hlength := congrArg List.length h
    -- a text that lost a comma is the same without its first one only if that was the only one
    rw [List.length_tail, List.length_tail] at hlength
    rw [List.length_nil, Nat.sub_zero] at hlong
    obtain ⟨v, rfl⟩ : ∃ v, items = [v] := List.length_eq_one_iff.mp (by omega)
    rw [List.mem_singleton.mp hmem]
  · rintro (hnone | rfl)
    · rw [List.filter_eq_self.mpr]
      intro v hv
      exact decide_eq_true fun hempty => hnone (hempty ▸ hv)
    · rfl

end Value

/-- A value renders as its cells with commas between them, so that its rendering forgets how arrays
nest. What `flat` makes of an array renders as the array does exactly if no element was the empty
array, or a single one was all there was. -/
theorem render_forgets_nesting :
    (∀ v : Value, v.render = [','].intercalate v.cells) ∧
      ∀ (args : List String) (items : List Value),
        (Operator.flat.apply args (.arr items)).value.render = (Value.arr items).render ↔
          .arr [] ∉ items ∨ items = [.arr []] := by
  refine ⟨Value.render_eq_cells, fun args items => ?_⟩
  rw [Operator.value_flat]
  exact Value.render_flatMap_eq_iff items

/-- Nulls and empty arrays at any depth have a cell each, and it is empty. -/
example :
    let nested := Value.arr [.null, .arr [.arr [], .str "a", .arr [.arr [.bool true, .null]]]]
    nested.cells = [[], [], ['a'], ['t', 'r', 'u', 'e'], []] ∧
      nested.render = ",,a,true,".toList := by
  decide

end PathQuery
