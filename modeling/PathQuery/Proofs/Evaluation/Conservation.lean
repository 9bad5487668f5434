import PathQuery.Projection
import PathQuery.Proofs.Evaluation.Selection
import PathQuery.Proofs.Json.Reading
import PathQuery.Proofs.Json.Parts
import PathQuery.Proofs.Json.Provenance

/-!
# What evaluation conserves

`Value.Conserved` is a relation between a value and its source that holds of parts and of null, and
of an array whose elements are each left out, replaced by a related value or spliced in
(`Value.Share`). Nothing else happens in an evaluation, so it holds between a selected value and the
document (`Conserved.evaluate`). The induction for calls follows `Operator.nesting_lt_of_mem`.

Three relations are conserved:

* `MadeFrom`: only null and arrays are new, and there are no more nodes (`evaluate_madeFrom`).
* Depth: nothing nests deeper than the document (`conserved_depth`).
* `KeepsKeys`: no key comes twice (`conserved_keepsKeys`), also through a mapping
  (`distinctKeys_project`).
-/

namespace PathQuery

/-- What an operator may make of an element. -/
inductive Value.Share (R : Value → Value → Prop) (v : Value) : List Value → Prop where
  | nothing : Share R v []
  | one {w : Value} : R w v → Share R v [w]
  | inner {items : List Value} : v = .arr items → Share R v items

/-- A relation of a value to its source that lookups and operators keep up. -/
structure Value.Conserved (R : Value → Value → Prop) : Prop where
  trans {u v w : Value} : R u v → R v w → R u w
  null (v : Value) : R .null v
  part {u v : Value} : u.Part v → R u v
  arr {share : Value → List Value} : (∀ v, Share R v (share v)) →
    ∀ items, R (.arr (items.flatMap share)) (.arr items)

/-- Whatever the segment selects has the relation to what it is selected from. -/
def Segment.Conserves (R : Value → Value → Prop) (segment : Segment) : Prop :=
  ∀ v, R (segment.select v) v

namespace Value.Conserved

variable {R : Value → Value → Prop} (hR : Conserved R)

include hR

/-! ## Lookups -/

theorem refl (v : Value) : R v v := hR.part .refl

/-- What a lookup finds, or null where it finds nothing. -/
theorem getD {found : Option Value} {v : Value} (h : ∀ u ∈ found, u.Part v) :
    R (found.getD .null) v := by
  cases found with
  | none => exact hR.null v
  | some u => exact hR.part (h u rfl)

theorem key (name : String) : (Segment.key name).Conserves R :=
  fun _ => hR.getD fun _ => part_of_field?

theorem index (position : Binary64) : (Segment.index position).Conserves R :=
  fun _ => hR.getD fun _ => part_of_item?

/-! ## Walks -/

/-- A walk conserves the relation if its segments do. -/
theorem select {path : Path} (h : ∀ segment ∈ path, segment.Conserves R) (v : Value) :
    R (path.select v) v := by
  induction path generalizing v with
  | nil => exact hR.refl v
  | cons segment rest ih =>
    rw [List.forall_mem_cons] at h
    have hnext : R (segment.select v) v := h.1 v
    rw [Path.select_cons]
    split
    · exact hnext
    · exact hR.trans (ih h.2 (segment.select v)) hnext

/-- An evaluation conserves the relation if its segments do. -/
theorem value_evaluate {path : Path} (h : ∀ segment ∈ path, segment.Conserves R)
    (document : Value) : R (path.evaluate document).value document := by
  rw [Path.value_evaluate]
  split
  · exact hR.null document
  · exact hR.select (fun segment hmem => h segment (Path.mem_of_mem_fromRoot hmem)) document

/-! ## Operators -/

/-- Leaving elements out conserves the relation. -/
theorem filter (p : Value → Bool) (items : List Value) :
    R (.arr (items.filter p)) (.arr items) := by
  -- an element that is not kept leaves nothing
  have hshare : items.filter p = items.flatMap fun v => if p v then [v] else [] := by
    induction items with
    | nil => rfl
    | cons v rest ih =>
      rw [List.filter_cons, List.flatMap_cons, ← ih]
      split <;> rfl
  rw [hshare]
  refine hR.arr (fun v => ?_) items
  split
  · exact .one (hR.refl v)
  · exact .nothing

theorem map {f : Value → Value} (h : ∀ v, R (f v) v) (items : List Value) :
    R (.arr (items.map f)) (.arr items) := by
  rw [List.map_eq_flatMap]
  exact hR.arr (fun v => .one (h v)) items

theorem flat (items : List Value) : R (.arr (items.flatMap Value.spliced)) (.arr items) := by
  refine hR.arr (fun v => ?_) items
  unfold Value.spliced
  split
  · exact .inner rfl
  · exact .one (hR.refl _)

/-- An operator keeps up the relation, if its sub-path does on the elements. -/
theorem call_of_subpath (op : Operator) {args : List String}
    (h : ∀ segment ∈ Path.ofText (Operator.subpath args), segment.Conserves R) :
    (Segment.call op args).Conserves R := by
  intro v
  rw [Segment.select]
  cases v with
  | arr items =>
    cases op with
    | find =>
      rw [Operator.value_find]
      exact hR.getD fun _ hfound => .item (List.mem_of_find?_eq_some hfound) .refl
    | filter =>
      rw [Operator.value_filter]
      exact hR.filter _ items
    | map =>
      rw [Operator.value_map]
      exact hR.map (hR.value_evaluate h) items
    | flat =>
      rw [Operator.value_flat]
      exact hR.flat items
  | _ =>
    rw [Operator.value_of_not_arr op]
    · exact hR.null _
    · exact nofun

/-- Calls keep up the relation, whatever their arguments. -/
theorem call (op : Operator) (args : List String) : (Segment.call op args).Conserves R := by
  apply hR.call_of_subpath
  intro segment hmem
  cases segment with
  | key name => exact hR.key name
  | index position => exact hR.index position
  | call op' args' => exact call op' args'
termination_by Operator.nesting args
decreasing_by exact Operator.nesting_lt_of_mem hmem

theorem segment (segment : Segment) : segment.Conserves R := by
  cases segment with
  | key name => exact hR.key name
  | index position => exact hR.index position
  | call op args => exact hR.call op args

/-- Whatever a path selects has the relation to the document. -/
theorem evaluate (document : Value) (text : String) : R (evaluate document text) document := by
  rw [evaluate_eq]
  exact hR.value_evaluate (fun segment _ => hR.segment segment) document

end Value.Conserved

/-! ## Provenance -/

namespace Value

/-- What an operator may make of an element is a share of it. -/
theorem Share.sharedFrom {v : Value} {ws : List Value} (h : Share MadeFrom v ws) :
    SharedFrom ws [v] := by
  cases h with
  | nothing => exact .nil [v]
  | one hw => exact .singleton hw
  | inner hv =>
    -- the elements of an array take its place, and its own node is gone
    subst hv
    refine ⟨fun _ hw hpart => ⟨_, List.mem_singleton_self _, .item hw hpart⟩, ?_⟩
    rw [nodesItems_cons, nodes_arr]
    omega

theorem conserved_madeFrom : Conserved MadeFrom where
  trans := .trans
  null := .null
  part := Part.madeFrom
  arr h items := (SharedFrom.flatMap (fun v => (h v).sharedFrom) items).madeFrom

end Value

/-- What a path selects, and what an operator gives, is made from what was there: only null and
arrays are new, and there are no more nodes than before. -/
theorem evaluate_madeFrom :
    (∀ document text, (evaluate document text).MadeFrom document) ∧
      ∀ op args v, (Operator.apply op args v).value.MadeFrom v := by
  constructor
  · intro document text
    exact Value.conserved_madeFrom.evaluate document text
  · exact fun op args => Value.conserved_madeFrom.call op args

/-! ## Depth and keys -/

namespace Value

variable {R : Value → Value → Prop} {v w : Value}

/-- An element of a share has the relation to the element it is made of, if the elements inside of
an array have it to the array. -/
theorem Share.rel {ws : List Value} (hinner : ∀ {w items}, w ∈ items → R w (.arr items))
    (h : Share R v ws) (hw : w ∈ ws) : R w v := by
  cases h with
  | nothing => cases hw
  | one hrel =>
    rw [List.mem_singleton] at hw
    exact hw ▸ hrel
  | inner hv => exact hv ▸ hinner hw

/-- Nothing that a path selects nests deeper than the document. -/
theorem conserved_depth : Conserved fun v source => v.depth ≤ source.depth where
  trans := Nat.le_trans
  null v := by simp
  part := Part.depth_le
  arr {share} h items := by
    rw [depth, depth, Nat.add_le_add_iff_right, depthItems_le]
    intro w hw
    obtain ⟨v, hv, hshare⟩ := List.mem_flatMap.mp hw
    have hle : w.depth ≤ v.depth := (h v).rel (fun hmem => Nat.le_of_lt (depth_lt_arr hmem)) hshare
    have hitem := depthItems_le.mp (Nat.le_refl _) v hv
    omega

theorem Part.distinctKeys {u v : Value} (h : u.Part v) (hv : v.DistinctKeys) :
    u.DistinctKeys := by
  induction h with
  | refl => exact hv
  | item hmem _ ih => exact ih (distinctKeys_arr.mp hv _ hmem)
  | field hmem _ ih => exact ih ((distinctKeys_obj.mp hv).2 _ hmem)

/-- No key comes twice in the value, if none does in its source. -/
def KeepsKeys (v source : Value) : Prop := source.DistinctKeys → v.DistinctKeys

theorem conserved_keepsKeys : Conserved KeepsKeys where
  trans huv hvw hw := huv (hvw hw)
  null v _ := by simp [DistinctKeys]
  part := Part.distinctKeys
  arr {share} h items hitems := by
    rw [distinctKeys_arr] at hitems ⊢
    intro w hw
    obtain ⟨v, hv, hshare⟩ := List.mem_flatMap.mp hw
    have hkeeps : w.KeepsKeys v :=
      (h v).rel (fun hmem harr => distinctKeys_arr.mp harr _ hmem) hshare
    exact hkeeps (hitems v hv)

theorem DistinctKeys.evaluate {document : Value} (hd : document.DistinctKeys) (text : String) :
    (evaluate document text).DistinctKeys := by
  have hkeeps : (PathQuery.evaluate document text).KeepsKeys document :=
    conserved_keepsKeys.evaluate document text
  exact hkeeps hd

/-- No key comes twice in what a mapping takes out of a document, the table itself included. -/
theorem distinctKeys_project {document : Value} (hd : document.DistinctKeys) (mapping : Mapping) :
    (document.project mapping).value.DistinctKeys := by
  cases mapping with
  | path text =>
    have hpath : (document.project (.path text)).value = PathQuery.evaluate document text := rfl
    rw [hpath]
    exact hd.evaluate text
  | table rows =>
    rw [project, Traced.value_bind, Traced.value_collect, Traced.value_pure, distinctKeys_obj]
    refine ⟨Fields.distinct_ofPairs _, Fields.forall_mem_ofPairs ?_⟩
    intro result hresult
    obtain ⟨row, -, rfl⟩ := List.mem_map.mp hresult
    have hvalue : ((row.1, ·) <$> document.follow row.2 : Traced _).value =
        (row.1, PathQuery.evaluate document row.2) := by
      rw [Traced.value_map, PathQuery.evaluate]
    rw [hvalue]
    dsimp only
    exact hd.evaluate row.2

end Value

end PathQuery
