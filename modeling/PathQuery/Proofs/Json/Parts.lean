import PathQuery.Evaluation.Walk

/-!
# The parts of a value

* `Value.induct`: induction on values, with the two kinds of lists that they nest through hidden.
* `Value.Part`: one value occurs in another one, at any depth.
* `Part.mem_write`, `Part.mem_render`: what is written for a value holds what is written for its
  parts.
* `IsWide`: an object with two fields occurs in the value. A comma stands between the two fields, so
  wide values render with a comma (`IsWide.comma_mem_render`).
-/

namespace PathQuery.Value

/-- Induction on values: a property that passes from the elements to an array and from the fields to
an object holds of every value. -/
@[elab_as_elim, induction_eliminator]
theorem induct {motive : Value → Prop} (null : motive .null) (bool : ∀ b, motive (.bool b))
    (num : ∀ n, motive (.num n)) (str : ∀ s, motive (.str s))
    (arr : ∀ items, (∀ v ∈ items, motive v) → motive (.arr items))
    (obj : ∀ fields, (∀ field ∈ fields, motive field.2) → motive (.obj fields)) (v : Value) :
    motive v := by
  refine @Value.rec motive (fun items => ∀ v ∈ items, motive v)
    (fun fields => ∀ field ∈ fields, motive field.2) (fun field => motive field.2)
    null bool num str arr obj ?_ ?_ ?_ ?_ ?_ v
  · exact nofun
  · intro v rest hv hrest
    exact List.forall_mem_cons.mpr ⟨hv, hrest⟩
  · exact nofun
  · intro field rest hfield hrest
    exact List.forall_mem_cons.mpr ⟨hfield, hrest⟩
  · exact fun _ _ hv => hv

/-- The value `u` occurs in the value. -/
inductive Part (u : Value) : Value → Prop where
  | refl : Part u u
  | item {v : Value} {items : List Value} : v ∈ items → Part u v → Part u (arr items)
  | field {field : String × Value} {fields : List (String × Value)} :
    field ∈ fields → Part u field.2 → Part u (obj fields)

theorem Part.trans {u v w : Value} (h : u.Part v) (h' : v.Part w) : u.Part w := by
  induction h' with
  | refl => exact h
  | item hv _ ih => exact .item hv ih
  | field hfield _ ih => exact .field hfield ih

theorem part_of_field? {v u : Value} {name : String} (h : v.field? name = some u) : u.Part v := by
  unfold field? at h
  split at h
  · exact .field (Fields.mem_of_get? h) .refl
  · cases h

theorem part_of_item? {v u : Value} {position : Binary64} (h : v.item? position = some u) :
    u.Part v := by
  unfold item? at h
  split at h
  · obtain ⟨i, -, hi⟩ := Option.bind_eq_some_iff.mp h
    exact .item (List.mem_of_getElem? hi) .refl
  · cases h

/-! ## What is written for the parts -/

variable {c : Char}

/-- Behind the commas of an array its elements are written. -/
theorem mem_writeItems {style : JsonStyle} {depth : Nat} {v : Value} {items : List Value}
    (hv : v ∈ items) (hc : c ∈ v.write style depth) : c ∈ writeItems style depth items := by
  induction items with
  | nil => cases hv
  | cons w rest ih =>
    rcases List.mem_cons.mp hv with rfl | hrest
    · simp [writeItems, hc]
    · simp [writeItems, ih hrest]

/-- Behind the commas of an object the values of its fields are written. -/
theorem mem_writeFields {style : JsonStyle} {depth : Nat} {field : String × Value}
    {fields : List (String × Value)} (hfield : field ∈ fields)
    (hc : c ∈ field.2.write style depth) : c ∈ writeFields style depth fields := by
  induction fields with
  | nil => cases hfield
  | cons first rest ih =>
    rcases List.mem_cons.mp hfield with rfl | hrest
    · simp [writeFields, hc]
    · simp [writeFields, ih hrest]

/-- A character that is written for a part wherever it stands is written for the whole. -/
theorem Part.mem_write {u v : Value} {style : JsonStyle} (h : u.Part v)
    (hc : ∀ depth, c ∈ u.write style depth) (depth : Nat) : c ∈ v.write style depth := by
  induction h generalizing depth with
  | refl => exact hc depth
  | @item v items hv _ ih =>
    have hinner := ih (depth + 1)
    obtain ⟨first, rest, rfl⟩ := List.exists_cons_of_ne_nil (List.ne_nil_of_mem hv)
    rcases List.mem_cons.mp hv with rfl | hrest
    · simp [write, hinner]
    · simp [write, mem_writeItems hrest hinner]
  | @field field fields hfield _ ih =>
    have hinner := ih (depth + 1)
    obtain ⟨first, rest, rfl⟩ := List.exists_cons_of_ne_nil (List.ne_nil_of_mem hfield)
    rcases List.mem_cons.mp hfield with rfl | hrest
    · simp [write, hinner]
    · simp [write, mem_writeFields hrest hinner]

theorem mem_renderItems {v : Value} {items : List Value} (hv : v ∈ items) (hc : c ∈ v.render) :
    c ∈ renderItems items := by
  induction items with
  | nil => cases hv
  | cons w rest ih =>
    rcases List.mem_cons.mp hv with rfl | hrest
    · simp [renderItems, hc]
    · simp [renderItems, ih hrest]

theorem mem_render_arr {v : Value} {items : List Value} (hv : v ∈ items) (hc : c ∈ v.render) :
    c ∈ (arr items).render := by
  obtain ⟨first, rest, rfl⟩ := List.exists_cons_of_ne_nil (List.ne_nil_of_mem hv)
  rcases List.mem_cons.mp hv with rfl | hrest
  · simp [render, hc]
  · simp [render, mem_renderItems hrest hc]

/-- The same for renderings, as long as the part is an object: objects render as they are written.
-/
theorem Part.mem_render {fields : List (String × Value)} {v : Value} (h : (obj fields).Part v)
    (hc : ∀ depth, c ∈ (obj fields).write .compact depth) : c ∈ v.render := by
  induction h with
  | refl =>
    rw [render]
    exact hc 0
  -- an object inside of an array still renders as it is written
  | item hv _ ih => exact mem_render_arr hv ih
  | field hfield hpart =>
    rw [render]
    exact (Part.field hfield hpart).mem_write hc 0

/-! ## Commas -/

/-- An object with at least two fields occurs in the value. -/
def IsWide (v : Value) : Prop :=
  ∃ fields : List (String × Value), 2 ≤ fields.length ∧ (obj fields).Part v

theorem IsWide.of_length {fields : List (String × Value)} (h : 2 ≤ fields.length) :
    (obj fields).IsWide :=
  ⟨fields, h, .refl⟩

theorem IsWide.item {v : Value} {items : List Value} (h : v.IsWide) (hv : v ∈ items) :
    (arr items).IsWide := by
  obtain ⟨fields, hlength, hpart⟩ := h
  exact ⟨fields, hlength, .item hv hpart⟩

theorem IsWide.field {field : String × Value} {fields : List (String × Value)}
    (h : field.2.IsWide) (hfield : field ∈ fields) : (obj fields).IsWide := by
  obtain ⟨inner, hlength, hpart⟩ := h
  exact ⟨inner, hlength, .field hfield hpart⟩

/-- A comma stands between two fields, in either style. -/
theorem comma_mem_write {fields : List (String × Value)} (h : 2 ≤ fields.length)
    (style : JsonStyle) (depth : Nat) : ',' ∈ (obj fields).write style depth := by
  obtain ⟨⟨k, v⟩, ⟨k', v'⟩, rest, rfl⟩ : ∃ first second rest, fields = first :: second :: rest := by
    match fields, h with
    | first :: second :: rest, _ => exact ⟨first, second, rest, rfl⟩
  rw [write, writeFields]
  simp

theorem IsWide.comma_mem_render {v : Value} (h : v.IsWide) : ',' ∈ v.render := by
  obtain ⟨fields, hlength, hpart⟩ := h
  exact hpart.mem_render (comma_mem_write hlength .compact)

end PathQuery.Value
