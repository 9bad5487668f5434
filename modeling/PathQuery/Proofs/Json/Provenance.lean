import PathQuery.Proofs.Json.Parts

/-!
# What a value is made from

* `Value.nodes` counts the values in a value, itself included.
* `MadeFrom v source`: everything in `v` that is neither null nor an array (`IsMaterial`) occurs in
  `source` as it stands, and `v` has no more nodes. Only null and arrays may be new.
* `SharedFrom ws vs`: the same for lists of values. Shares are taken element by element
  (`SharedFrom.flatMap`).
-/

namespace PathQuery.Value

/-! ## Nodes -/

mutual
/-- How many values there are in the value, itself included. -/
def nodes : Value → Nat
  | arr items => nodesItems items + 1
  | obj fields => nodesFields fields + 1
  | _ => 1

def nodesItems : List Value → Nat
  | [] => 0
  | v :: rest => nodes v + nodesItems rest

def nodesFields : List (String × Value) → Nat
  | [] => 0
  | (_, v) :: rest => nodes v + nodesFields rest
end

@[simp] theorem nodes_arr (items : List Value) : (arr items).nodes = nodesItems items + 1 := by
  rw [nodes]

@[simp] theorem nodesItems_nil : nodesItems [] = 0 := by
  rw [nodesItems]

@[simp] theorem nodesItems_cons (v : Value) (rest : List Value) :
    nodesItems (v :: rest) = v.nodes + nodesItems rest := by
  rw [nodesItems]

@[simp] theorem nodesItems_append (vs ws : List Value) :
    nodesItems (vs ++ ws) = nodesItems vs + nodesItems ws := by
  induction vs with
  | nil => simp
  | cons v rest ih => rw [List.cons_append, nodesItems_cons, nodesItems_cons, ih, Nat.add_assoc]

theorem nodes_pos (v : Value) : 0 < v.nodes := by
  cases v <;> simp [nodes]

/-- An element has no more nodes than the elements together. -/
theorem nodes_le_of_mem_items {v : Value} {items : List Value} (h : v ∈ items) :
    v.nodes ≤ nodesItems items := by
  induction items with
  | nil => cases h
  | cons first rest ih =>
    rw [nodesItems_cons]
    rcases List.mem_cons.mp h with rfl | hrest
    · omega
    · have := ih hrest
      omega

/-- A field has no more nodes than the fields together. -/
theorem nodes_le_of_mem_fields {field : String × Value} {fields : List (String × Value)}
    (h : field ∈ fields) : field.2.nodes ≤ nodesFields fields := by
  induction fields with
  | nil => cases h
  | cons first rest ih =>
    rw [nodesFields]
    rcases List.mem_cons.mp h with rfl | hrest
    · omega
    · have := ih hrest
      omega

/-- A part has no more nodes than the whole. -/
theorem Part.nodes_le {u v : Value} (h : u.Part v) : u.nodes ≤ v.nodes := by
  induction h with
  | refl => exact Nat.le_refl _
  | item hv _ ih =>
    have hitem := nodes_le_of_mem_items hv
    rw [nodes_arr]
    omega
  | field hfield _ ih =>
    have hfield' := nodes_le_of_mem_fields hfield
    rw [nodes]
    omega

/-! ## Values made from values -/

/-- An object, or a scalar other than null. -/
def IsMaterial (v : Value) : Prop := v ≠ null ∧ ∀ items, v ≠ arr items

/-- What is not an array occurs in an array only if it occurs in an element. -/
theorem IsMaterial.part_item {u : Value} {items : List Value} (hu : u.IsMaterial)
    (h : u.Part (arr items)) : ∃ v ∈ items, u.Part v := by
  cases h with
  | refl => exact absurd rfl (hu.2 items)
  | item hv hpart => exact ⟨_, hv, hpart⟩

/-- Only null and arrays are new in the value, and it is not larger than its source. -/
structure MadeFrom (v source : Value) : Prop where
  part {u : Value} : u.IsMaterial → u.Part v → u.Part source
  nodes_le : v.nodes ≤ source.nodes

theorem Part.madeFrom {u v : Value} (h : u.Part v) : u.MadeFrom v :=
  ⟨fun _ hpart => hpart.trans h, h.nodes_le⟩

namespace MadeFrom

theorem trans {u v w : Value} (h : u.MadeFrom v) (h' : v.MadeFrom w) : u.MadeFrom w :=
  ⟨fun hu hpart => h'.part hu (h.part hu hpart), Nat.le_trans h.nodes_le h'.nodes_le⟩

theorem null (v : Value) : Value.null.MadeFrom v := by
  refine ⟨fun hu hpart => ?_, ?_⟩
  · cases hpart
    exact absurd rfl hu.1
  · show 1 ≤ v.nodes
    exact v.nodes_pos

end MadeFrom

/-! ## Lists made from lists -/

/-- The same for all the values of a list together. -/
structure SharedFrom (ws vs : List Value) : Prop where
  part {u w : Value} : u.IsMaterial → w ∈ ws → u.Part w → ∃ v ∈ vs, u.Part v
  nodes_le : nodesItems ws ≤ nodesItems vs

namespace SharedFrom

theorem nil (vs : List Value) : SharedFrom [] vs :=
  ⟨nofun, by simp⟩

theorem singleton {w v : Value} (h : w.MadeFrom v) : SharedFrom [w] [v] := by
  refine ⟨fun hu hw hpart => ?_, by simpa using h.nodes_le⟩
  rw [List.mem_singleton.mp hw] at hpart
  exact ⟨v, List.mem_singleton_self v, h.part hu hpart⟩

/-- Shares of two lists are put side by side. -/
theorem append {ws ws' vs vs' : List Value} (h : SharedFrom ws vs) (h' : SharedFrom ws' vs') :
    SharedFrom (ws ++ ws') (vs ++ vs') := by
  constructor
  · intro u w hu hw hpart
    rcases List.mem_append.mp hw with hw | hw
    · obtain ⟨v, hv, hpart'⟩ := h.part hu hw hpart
      exact ⟨v, List.mem_append_left _ hv, hpart'⟩
    · obtain ⟨v, hv, hpart'⟩ := h'.part hu hw hpart
      exact ⟨v, List.mem_append_right _ hv, hpart'⟩
  · have hnodes := h.nodes_le
    have hnodes' := h'.nodes_le
    rw [nodesItems_append, nodesItems_append]
    omega

/-- Each element gives a share of its own. -/
theorem flatMap {share : Value → List Value} (h : ∀ v, SharedFrom (share v) [v])
    (vs : List Value) : SharedFrom (vs.flatMap share) vs := by
  induction vs with
  | nil => exact nil _
  | cons v rest ih => exact (h v).append ih

/-- An array of shares is made from the array of the values. -/
theorem madeFrom {ws vs : List Value} (h : SharedFrom ws vs) : (arr ws).MadeFrom (arr vs) := by
  constructor
  · intro u hu hpart
    obtain ⟨w, hw, hpart⟩ := hu.part_item hpart
    obtain ⟨v, hv, hpart⟩ := h.part hu hw hpart
    exact .item hv hpart
  · have hnodes := h.nodes_le
    rw [nodes_arr, nodes_arr]
    omega

end SharedFrom

end PathQuery.Value
