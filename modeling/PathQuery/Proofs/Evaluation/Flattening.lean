import PathQuery.Proofs.Evaluation.Composition

/-!
# Flattening

`Value.leaves` are the values below the arrays of a value, and `Value.levels` counts the arrays
around them. One call of `flat` keeps the leaves with their order and takes one level away
(`leavesItems_flatMap`, `levelsItems_flatMap`).

`evaluate_flats`: a path of at least `levels - 1` calls of `flat` leads to the array of the leaves.
Where only empty arrays are left the walk ends early, and there are no leaves.
-/

namespace PathQuery

namespace Value

mutual
/-- How many arrays stand inside each other, with nothing between them. -/
def levels : Value → Nat
  | arr items => levelsItems items + 1
  | _ => 0

/-- The most levels among the elements. -/
def levelsItems : List Value → Nat
  | [] => 0
  | v :: rest => max (levels v) (levelsItems rest)
end

mutual
/-- The values that are not arrays, as far as one comes to them through arrays alone. -/
def leaves : Value → List Value
  | arr items => leavesItems items
  | v => [v]

/-- The leaves of the elements, in order. -/
def leavesItems : List Value → List Value
  | [] => []
  | v :: rest => leaves v ++ leavesItems rest
end

/-! ## One level less -/

theorem levelsItems_append (vs ws : List Value) :
    levelsItems (vs ++ ws) = max (levelsItems vs) (levelsItems ws) := by
  induction vs with
  | nil => rw [levelsItems, List.nil_append, Nat.zero_max]
  | cons v vs ih => rw [List.cons_append, levelsItems, levelsItems, ih, Nat.max_assoc]

theorem leavesItems_append (vs ws : List Value) :
    leavesItems (vs ++ ws) = leavesItems vs ++ leavesItems ws := by
  induction vs with
  | nil => rw [leavesItems, List.nil_append, List.nil_append]
  | cons v vs ih => rw [List.cons_append, leavesItems, leavesItems, ih, List.append_assoc]

/-- Splicing takes one level away. -/
theorem levelsItems_spliced (v : Value) : levelsItems v.spliced = v.levels - 1 := by
  cases v with
  | arr items => rw [spliced, levels, Nat.add_sub_cancel]
  | _ => rfl

/-- Splicing keeps the leaves. -/
theorem leavesItems_spliced (v : Value) : leavesItems v.spliced = v.leaves := by
  cases v with
  | arr items => rw [spliced, leaves]
  | _ => rfl

/-- Splicing all elements in takes one level away. -/
theorem levelsItems_flatMap (items : List Value) :
    levelsItems (items.flatMap spliced) = levelsItems items - 1 := by
  induction items with
  | nil => rfl
  | cons v rest ih =>
    rw [List.flatMap_cons, levelsItems_append, levelsItems_spliced, ih, levelsItems]
    omega

/-- Splicing all elements in keeps the leaves. -/
theorem leavesItems_flatMap (items : List Value) :
    leavesItems (items.flatMap spliced) = leavesItems items := by
  induction items with
  | nil => rfl
  | cons v rest ih =>
    rw [List.flatMap_cons, leavesItems_append, leavesItems_spliced, ih, leavesItems]

/-- Without an array among them the elements are the leaves. -/
theorem leavesItems_eq_self {items : List Value} (h : levelsItems items = 0) :
    leavesItems items = items := by
  induction items with
  | nil => rfl
  | cons v rest ih =>
    rw [levelsItems] at h
    have hrest : leavesItems rest = rest := ih (by omega)
    have hleaf : v.leaves = [v] := by
      cases v with
      | arr items =>
        rw [levels] at h
        omega
      | _ => rfl
    rw [leavesItems, hleaf, hrest, List.singleton_append]

end Value

/-! ## Level after level -/

namespace Path

open Value (levelsItems leavesItems)

/-- The walk along enough calls of `flat` comes to the leaves. -/
theorem select_flats {n : Nat} {items : List Value} (args : List String)
    (h : levelsItems items ≤ n) :
    select (List.replicate n (.call .flat args)) (.arr items) = .arr (leavesItems items) := by
  induction n generalizing items with
  | zero => rw [List.replicate_zero, select_nil, Value.leavesItems_eq_self (by omega)]
  | succ n ih =>
    have hlevels := Value.levelsItems_flatMap items
    rw [List.replicate_succ, select_cons, Segment.select, Operator.value_flat,
      ← Value.leavesItems_flatMap]
    split
    · -- nothing is left, and the other calls are not made
      rename_i hfalsy
      rw [List.isEmpty_iff.mp hfalsy]
      rfl
    · exact ih (by omega)

theorem ofText_flats (n : Nat) :
    ofText (".".intercalate (List.replicate n "flat()")) = List.replicate n (.call .flat []) := by
  have hclosed : (Scan.ofText "flat()".toList).IsClosed := by decide
  have hcall : ofText "flat()" = [.call .flat []] := by decide
  rw [ofText_intercalate fun text htext => (List.eq_of_mem_replicate htext).symm ▸ hclosed,
    List.flatMap_replicate, hcall, List.flatten_replicate_singleton]

end Path

/-- A path of calls does not begin with `root`. -/
theorem evaluate_flats_eq_select {n : Nat} (hn : 1 ≤ n) (document : Value) :
    evaluate document (".".intercalate (List.replicate n "flat()")) =
      Path.select (List.replicate n (.call .flat [])) document := by
  have hne : Path.ofText (".".intercalate (List.replicate n "flat()")) ≠ [] := by
    rw [Path.ofText_flats, ne_eq, List.replicate_eq_nil_iff]
    omega
  have hroot : (Path.ofText (".".intercalate (List.replicate n "flat()"))).head? ≠
      some (.key rootField) := by
    rw [Path.ofText_flats, List.head?_replicate, if_neg (by omega)]
    exact nofun
  rw [evaluate_eq_select hne hroot, Path.ofText_flats]

/-- `flat` keeps the leaves of an array with their order and takes one level away, if there is more
than one. A path of as many calls as there are levels to be taken away, or more of them, leads to
the array of the leaves. -/
theorem evaluate_flats (items : List Value) :
    (∀ args, ∃ flattened, (Operator.flat.apply args (.arr items)).value = .arr flattened ∧
      (Value.arr flattened).leaves = (Value.arr items).leaves ∧
      (Value.arr flattened).levels = max 1 ((Value.arr items).levels - 1)) ∧
    ∀ n, 1 ≤ n → (Value.arr items).levels - 1 ≤ n →
      evaluate (.arr items) (".".intercalate (List.replicate n "flat()")) =
        .arr (Value.arr items).leaves := by
  constructor
  · intro args
    refine ⟨_, Operator.value_flat args items, ?_, ?_⟩
    · rw [Value.leaves, Value.leaves, Value.leavesItems_flatMap]
    · rw [Value.levels, Value.levels, Value.levelsItems_flatMap]
      omega
  · intro n hn hlevels
    rw [Value.levels] at hlevels
    rw [evaluate_flats_eq_select hn, Path.select_flats [] (by omega), Value.leaves]

/-- Leaves and empty arrays at every level. In the second array there is nothing but levels, and the
walk is over behind the second of five calls. -/
theorem evaluate_flats_irregular :
    let object := Value.obj [("k", .arr [.arr []])]
    let irregular : List Value :=
      [.arr [.arr [], .bool true], .str "a", .arr [.arr [.arr [.null, object]], .str "b"], .arr []]
    let hollow : List Value := [.arr [.arr []], .arr []]
    let leaves := [.bool true, .str "a", .null, object, .str "b"]
    (Value.arr irregular).levels = 4 ∧ (Value.arr irregular).levels - 1 ≤ 3 ∧
      evaluate (.arr irregular) "flat().flat().flat()" = .arr leaves ∧
      (Value.arr hollow).levels = 3 ∧ (Value.arr hollow).levels - 1 ≤ 5 ∧
      evaluate (.arr hollow) "flat().flat().flat().flat().flat()" = .arr [] := by
  intro object irregular hollow leaves
  have hlevels : (Value.arr irregular).levels = 4 := by decide +kernel
  have hlevels' : (Value.arr hollow).levels = 3 := by decide +kernel
  have henough : (Value.arr irregular).levels - 1 ≤ 3 := by omega
  have henough' : (Value.arr hollow).levels - 1 ≤ 5 := by omega
  have hleaves := (evaluate_flats irregular).2 3 (by decide) henough
  have hnone := (evaluate_flats hollow).2 5 (by decide) henough'
  exact ⟨hlevels, henough, hleaves, hlevels', henough', hnone⟩

end PathQuery
