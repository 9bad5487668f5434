import PathQuery.Proofs.Evaluation.RootWrapper
import PathQuery.Proofs.Path.Calls

/-!
# One map for two

`evaluate_map_map` compares two calls of `map` with one call of the two sub-paths joined by a dot.
The results agree at an element iff the first sub-path leads to null or to a truthy value. At any
other falsy value the joined sub-path stops and keeps it (`evaluate_join`), and the second of two
maps gives null (`Path.value_evaluate_of_isFalsy`).
-/

namespace PathQuery

namespace Segment

variable {a b : String}

theorem Clear.join (ha : Clear a) (hb : Clear b) : Clear (a ++ "." ++ b) := by
  intro c hc
  rw [String.toList_append, String.toList_append, List.mem_append, List.mem_append] at hc
  rcases hc with (hc | hc) | hc
  · exact ha c hc
  · rw [List.mem_singleton.mp hc]
    decide
  · exact hb c hc

end Segment

namespace Path

/-- A sub-path that makes a step finds nothing in a falsy value. -/
theorem value_evaluate_of_isFalsy {b : String} (hb : Segment.Clear b) (hpath : ofText b ≠ [])
    (hroot : (ofText b).head? ≠ some (.key rootField)) {v : Value} (hv : v.isFalsy = true) :
    ((ofText b).evaluate v).value = .null := by
  rw [value_evaluate, if_neg hpath, fromRoot_of_head? hroot]
  obtain ⟨segment, rest, hsegments⟩ := List.exists_cons_of_ne_nil hpath
  have hkeeps : ¬segment.KeepsEmpty := by
    cases segment with
    | key name => exact id
    | index position => exact id
    | call op args =>
      have hcall := ofText_noCall hb op args
      rw [hsegments] at hcall
      exact absurd List.mem_cons_self hcall
  rw [hsegments, select_cons, Segment.select_of_isFalsy hv fun h => hkeeps h.2]
  rfl

theorem select_map {s : String} (hs : Segment.Clear s) (hquote : '\'' ∉ s.toList)
    (items : List Value) :
    (Segment.call .map (Segment.argsIn s)).select (.arr items) =
      .arr (items.map fun item => PathQuery.evaluate item s) := by
  have hsubpath : Operator.subpath (Segment.argsIn s) = Segment.cleaned s := Segment.headD_argsIn hs
  rw [Segment.select, Operator.value_map, hsubpath, Segment.ofText_cleaned_of_unquoted hs hquote]
  simp only [evaluate_eq]

end Path

section

variable {document : Value} {p a b : String} {items : List Value}

/-- Behind a path that leads to an array with elements, `map` acts on these. -/
theorem evaluate_append_map (hmute : (Scan.ofText p.toList).mute = 0)
    (hp : evaluate document p = .arr items) (hne : items ≠ []) (ha : Segment.Clear a)
    (hquote : '\'' ∉ a.toList) :
    evaluate document (p ++ "." ++ Operator.map.callText a) =
      .arr (items.map fun item => evaluate item a) := by
  have htruthy : (evaluate document p).isFalsy = false := by
    rw [hp]
    exact List.isEmpty_eq_false_iff.mpr hne
  have htext := Path.ofText_append_call hmute .map (Segment.unparenthesized_of_clear ha)
  rw [evaluate_of_append htext htruthy Path.head?_call_ne_root, Path.select_singleton, hp,
    Path.select_map ha hquote]

/-- From an element, the joined sub-paths select what the first one selects where that is falsy, and
else what the second one selects from there. -/
theorem evaluate_join (hclosed : (Scan.ofText a.toList).IsClosed) (ha : Path.ofText a ≠ [])
    (hroot : Path.ofText a ≠ [.key rootField]) (hb : Path.ofText b ≠ [])
    (hroot' : (Path.ofText b).head? ≠ some (.key rootField)) (item : Value) :
    evaluate item (a ++ "." ++ b) =
      if (evaluate item a).isFalsy then evaluate item a else evaluate (evaluate item a) b := by
  have hstart : (Path.ofText a).fromRoot item ≠ [] := fun h => hroot (Path.eq_root_of_fromRoot ha h)
  rw [evaluate_eq_select hb hroot', evaluate_eq, Path.ofText_append_dot hclosed,
    Path.value_evaluate_append_ite ha (.inl hstart) hroot', ← evaluate_eq]

/-- The same against the two sub-paths one behind the other, each from the start. -/
theorem evaluate_join_eq_iff (hclosed : (Scan.ofText a.toList).IsClosed) (ha : Path.ofText a ≠ [])
    (hroot : Path.ofText a ≠ [.key rootField]) (hclear : Segment.Clear b) (hb : Path.ofText b ≠ [])
    (hroot' : (Path.ofText b).head? ≠ some (.key rootField)) (item : Value) :
    let first := evaluate item a
    (evaluate first b = evaluate item (a ++ "." ++ b) ↔ first = .null ∨ first.isFalsy = false) ∧
      (¬(first = .null ∨ first.isFalsy = false) →
        evaluate item (a ++ "." ++ b) = first ∧ evaluate first b = .null) := by
  intro first
  have hjoined : evaluate item (a ++ "." ++ b) =
      if first.isFalsy then first else evaluate first b :=
    evaluate_join hclosed ha hroot hb hroot' item
  cases hfirst : first.isFalsy with
  | false =>
    rw [hfirst] at hjoined
    exact ⟨⟨fun _ => .inr rfl, fun _ => hjoined.symm⟩, fun h => absurd (.inr rfl) h⟩
  | true =>
    have hnull : evaluate first b = .null := by
      rw [evaluate_eq]
      exact Path.value_evaluate_of_isFalsy hclear hb hroot' hfirst
    rw [hjoined, hfirst, if_pos rfl, hnull]
    refine ⟨⟨fun h => .inl h.symm, fun h => ?_⟩, fun _ => ⟨rfl, rfl⟩⟩
    rcases h with h | h
    · exact h.symm
    · cases h

/-- Behind a path that leads to an array with elements, two maps, or one map with the two sub-paths
joined, give as many elements again. They give the same for an element exactly where the first
sub-path leads to null or to something truthy. Elsewhere the one map keeps the falsy value, and the
two of them have null. -/
theorem evaluate_map_map (hmute : (Scan.ofText p.toList).mute = 0)
    (hp : evaluate document p = .arr items) (hne : items ≠ []) (hclear : Segment.Clear a)
    (hquote : '\'' ∉ a.toList) (hclear' : Segment.Clear b) (hquote' : '\'' ∉ b.toList)
    (hclosed : (Scan.ofText a.toList).IsClosed) (ha : Path.ofText a ≠ [])
    (hroot : Path.ofText a ≠ [.key rootField]) (hb : Path.ofText b ≠ [])
    (hroot' : (Path.ofText b).head? ≠ some (.key rootField)) :
    ∃ chained fused : List Value,
      evaluate document (p ++ ".map(" ++ a ++ ").map(" ++ b ++ ")") = .arr chained ∧
      evaluate document (p ++ ".map(" ++ a ++ "." ++ b ++ ")") = .arr fused ∧
      chained.length = items.length ∧ fused.length = items.length ∧
      ∀ (i : Nat) (item : Value), items[i]? = some item →
        let first := evaluate item a
        (chained[i]? = fused[i]? ↔ first = .null ∨ first.isFalsy = false) ∧
          (¬(first = .null ∨ first.isFalsy = false) →
            fused[i]? = some first ∧ chained[i]? = some .null) := by
  have hchain : p ++ ".map(" ++ a ++ ").map(" ++ b ++ ")" =
      p ++ "." ++ Operator.map.callText a ++ "." ++ Operator.map.callText b := by
    rw [← String.toList_inj]
    simp [Operator.callText, Operator.name]
  have hfuse : p ++ ".map(" ++ a ++ "." ++ b ++ ")" =
      p ++ "." ++ Operator.map.callText (a ++ "." ++ b) := by
    rw [← String.toList_inj]
    simp [Operator.callText, Operator.name]
  -- the first map leaves the scan as open as it was, and has elements to hand on
  have hfirst : evaluate document (p ++ "." ++ Operator.map.callText a) =
      .arr (items.map fun item => evaluate item a) :=
    evaluate_append_map hmute hp hne hclear hquote
  have hmute' : (Scan.ofText (p ++ "." ++ Operator.map.callText a).toList).mute = 0 :=
    (congrArg Counts.mute
      (Path.counts_append_call p .map (Segment.unparenthesized_of_clear hclear))).trans hmute
  have hne' : items.map (fun item => evaluate item a) ≠ [] := by simpa using hne
  have hquote'' : '\'' ∉ (a ++ "." ++ b).toList := by simp [hquote, hquote']
  refine ⟨_, _, hchain ▸ evaluate_append_map hmute' hfirst hne' hclear' hquote',
    hfuse ▸ evaluate_append_map hmute hp hne (hclear.join hclear') hquote'', by simp, by simp, ?_⟩
  intro i item hitem first
  obtain ⟨hiff, hdiffer⟩ := evaluate_join_eq_iff hclosed ha hroot hclear' hb hroot' item
  simp only [List.getElem?_map, hitem, Option.map_some, Option.some.injEq]
  exact ⟨hiff, hdiffer⟩

end

/-- Behind a bracket that stays open. The first sub-path leads to an object, to two falsy values,
and to null. -/
theorem evaluate_map_map_falsy :
    let wrap (v : Value) : Value := .obj [("x", .arr [v])]
    let items := [wrap (.obj [("y", .bool true)]), wrap (.arr []), wrap (.str ""), wrap .null]
    let document := Value.obj [("rows", .arr [.arr items])]
    let p := "root.rows[0"
    let a := "root.x[0]"
    let b := " y "
    let chained := [.bool true, .null, .null, .null]
    let fused := [.bool true, .arr [], .str "", .null]
    (Scan.ofText p.toList).mute = 0 ∧ evaluate document p = .arr items ∧ items ≠ [] ∧
      Segment.Clear a ∧ '\'' ∉ a.toList ∧ Segment.Clear b ∧ '\'' ∉ b.toList ∧
      (Scan.ofText a.toList).IsClosed ∧ Path.ofText a ≠ [] ∧
      Path.ofText a ≠ [.key rootField] ∧ Path.ofText b ≠ [] ∧
      (Path.ofText b).head? ≠ some (.key rootField) ∧
      evaluate document (p ++ ".map(" ++ a ++ ").map(" ++ b ++ ")") = .arr chained ∧
      evaluate document (p ++ ".map(" ++ a ++ "." ++ b ++ ")") = .arr fused ∧
      (∀ i ∈ [0, 3], chained[i]? = fused[i]?) ∧ ∀ i ∈ [1, 2], chained[i]? ≠ fused[i]? := by
  intro wrap items document p a b chained fused
  have hmute : (Scan.ofText p.toList).mute = 0 := by decide
  have hp : evaluate document p = .arr items := by decide +kernel
  have hne : items ≠ [] := List.cons_ne_nil _ _
  have hclear : Segment.Clear a := by decide
  have hquote : '\'' ∉ a.toList := by decide
  have hclear' : Segment.Clear b := by decide
  have hquote' : '\'' ∉ b.toList := by decide
  have hclosed : (Scan.ofText a.toList).IsClosed := by decide
  have ha : Path.ofText a ≠ [] := by decide
  have hroot : Path.ofText a ≠ [.key rootField] := by decide
  have hb : Path.ofText b ≠ [] := by decide
  have hroot' : (Path.ofText b).head? ≠ some (.key rootField) := by decide
  obtain ⟨chained', fused', hchained, hfused, -, -, hpositions⟩ :=
    evaluate_map_map hmute hp hne hclear hquote hclear' hquote' hclosed ha hroot hb hroot'
  have hchained' : chained' = chained := Value.arr.inj (hchained.symm.trans (by decide +kernel))
  have hfused' : fused' = fused := Value.arr.inj (hfused.symm.trans (by decide +kernel))
  rw [hchained'] at hchained hpositions
  rw [hfused'] at hfused hpositions
  refine ⟨hmute, hp, hne, hclear, hquote, hclear', hquote', hclosed, ha, hroot, hb, hroot',
    hchained, hfused, ?_, ?_⟩
  · have htruthy := (hpositions 0 _ rfl).1.mpr (.inr (by decide +kernel))
    have hnull := (hpositions 3 _ rfl).1.mpr (.inl (by decide +kernel))
    simpa using ⟨htruthy, hnull⟩
  · have hempty := mt (hpositions 1 _ rfl).1.mp (by decide +kernel)
    have hblank := mt (hpositions 2 _ rfl).1.mp (by decide +kernel)
    simpa using ⟨hempty, hblank⟩

end PathQuery
