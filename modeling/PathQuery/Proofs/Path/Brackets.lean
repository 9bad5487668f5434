import PathQuery.Proofs.Path.Cuts

/-!
# Brackets behind a closed text

`Cut.Balanced` is a text whose brackets outside parentheses pair up, by position.

* `Counts.split_inBrackets`: inside a pair of brackets such a text is cut at its dots only
  (`Cut.dots`). Its surplus of brackets never goes below zero, so the count is the surplus and one
  more.
* `pathPieces_append_closed`: behind a closed text a dot or a pair of brackets starts afresh, so the
  pieces of the whole are those of the parts.
-/

namespace PathQuery

namespace Cut

variable (cs : List Char)

/-- How many more brackets open than close in front of a position. Those in parentheses do not
count. -/
def nesting (i : Nat) : Int :=
  surplus (fun k => mute cs k = 0 ∧ cs[k]? = some '[') (fun k => mute cs k = 0 ∧ cs[k]? = some ']')
    0 i

/-- The brackets outside parentheses pair up: none closes before it opens, and none stays open. -/
structure Balanced : Prop where
  nonneg : ∀ i ≤ cs.length, 0 ≤ nesting cs i
  closed : nesting cs cs.length = 0

instance : Decidable (Balanced cs) :=
  decidable_of_iff ((∀ i ≤ cs.length, 0 ≤ nesting cs i) ∧ nesting cs cs.length = 0)
    ⟨fun h => ⟨h.1, h.2⟩, fun h => ⟨h.nonneg, h.closed⟩⟩

/-- The positions of the dots outside parentheses. -/
def dots : List Nat := (List.range cs.length).filter fun i => mute cs i = 0 ∧ cs[i]? = some '.'

end Cut

namespace Counts

/-- The counts behind an opening bracket that nothing surrounds. -/
def inBrackets : Counts := ⟨0, 1⟩

/-- Inside a pair of brackets the count stands at the surplus and the bracket in front. -/
theorem depth_inBrackets_take {cs : List Char}
    (hnonneg : ∀ i ≤ cs.length, 0 ≤ Cut.nesting cs i) {i : Nat} (h : i ≤ cs.length) :
    ((inBrackets.run (cs.take i)).depth : Int) = Cut.nesting cs i + 1 := by
  induction i with
  | zero =>
    rw [Cut.nesting, Cut.surplus_self]
    rfl
  | succ i ih =>
    have hdepth := ih (by omega)
    have hnext := hnonneg (i + 1) h
    rw [Cut.nesting, Cut.surplus_succ _ _ (Nat.zero_le i), ← Cut.nesting,
      bracket_gain (k := inBrackets) rfl h] at hnext ⊢
    rw [run_take_succ inBrackets h, depth_step, hdepth]
    omega

/-- Inside a pair of brackets a piece ends exactly at the dots. -/
theorem cuts_inBrackets_iff {cs before rest : List Char} {c : Char}
    (hnonneg : ∀ i ≤ cs.length, 0 ≤ Cut.nesting cs i) (h : cs = before ++ c :: rest) :
    (inBrackets.run before).cuts c = true ↔
      Cut.mute cs before.length = 0 ∧ cs[before.length]? = some '.' := by
  have htake : cs.take before.length = before := by simp [h]
  have hget : cs[before.length]? = some c := by simp [h]
  have hlt : before.length < cs.length := by simp [h]
  have hmute := mute_run_take (k := inBrackets) rfl hlt.le
  have hdepth := depth_inBrackets_take hnonneg hlt.le
  have hhere := hnonneg before.length hlt.le
  rw [htake] at hmute hdepth
  rw [cuts_iff, ← hmute, hget, Option.some.injEq, Int.natCast_eq_zero]
  refine and_congr_right fun hzero => ⟨?_, fun hdot => Or.inl (Or.inl hdot)⟩
  rintro ((hdot | ⟨-, hopen⟩) | ⟨hbracket, hclose⟩)
  · exact hdot
  · -- one bracket at least is open
    omega
  · -- a bracket that closed the pair would take the surplus below zero
    have hnext := depth_inBrackets_take (i := before.length + 1) hnonneg hlt
    have hbelow := hnonneg (before.length + 1) hlt
    have hstep : ((inBrackets.run before).step ']').depth = 0 := by
      simp [step, hzero, hclose]
    have hchar : cs[before.length] = ']' := by
      rw [← hbracket, ← Option.some_inj, ← List.getElem?_eq_getElem hlt, hget]
    rw [run_take_succ _ hlt, htake, hchar, hstep] at hnext
    omega

/-- Inside a pair of brackets a text is split at its dots, if its own brackets pair up. -/
theorem split_inBrackets {cs : List Char} (h : Cut.Balanced cs) :
    inBrackets.split cs = Cut.between cs 0 (Cut.dots cs) :=
  split_eq_between fun _ _ _ => cuts_inBrackets_iff h.nonneg

/-- Behind such a text the pair of brackets is still all that is open. -/
theorem run_inBrackets {cs : List Char} (hmute : (Scan.ofText cs).mute = 0)
    (h : Cut.Balanced cs) : inBrackets.run cs = inBrackets := by
  have hcounts : (({} : Counts).run cs).mute = 0 := by
    rw [← Scan.counts_ofText]
    exact hmute
  have hfresh := mute_run_take (k := {}) rfl (Nat.le_refl cs.length)
  have hmute' := mute_run_take (k := inBrackets) rfl (Nat.le_refl cs.length)
  rw [← hfresh, List.take_length, hcounts] at hmute'
  have hdepth := depth_inBrackets_take h.nonneg (Nat.le_refl cs.length)
  rw [h.closed, List.take_length] at hdepth
  have hnone : (inBrackets.run cs).mute = 0 := by omega
  have hone : (inBrackets.run cs).depth = 1 := by omega
  calc inBrackets.run cs = ⟨(inBrackets.run cs).mute, (inBrackets.run cs).depth⟩ := rfl
    _ = inBrackets := by
      rw [hnone, hone]
      rfl

/-- A bracket that opens behind a closed text is a cut, and a single pair is open behind it. -/
theorem split_append_open {cs : List Char} (h : (Scan.ofText cs).IsClosed) (rest : List Char) :
    ({} : Counts).split (cs ++ '[' :: rest) = ({} : Counts).split cs ++ inBrackets.split rest := by
  have hrun : ({} : Counts).run cs = {} := Scan.isClosed_iff.mp h
  have hopen : (({} : Counts).run cs).cuts '[' = true := by
    rw [hrun]
    rfl
  have hstep : (({} : Counts).run cs).step '[' = inBrackets := by
    rw [hrun]
    rfl
  rw [split_append_cut hopen, hstep]

end Counts

/-- A pair of brackets behind a closed text starts afresh, and so does what follows the pair. -/
theorem pathPieces_append_brackets {cs inner : List Char} (hcs : (Scan.ofText cs).IsClosed)
    (hmute : (Scan.ofText inner).mute = 0) (hinner : Cut.Balanced inner) (rest : List Char) :
    pathPieces (cs ++ '[' :: (inner ++ ']' :: rest)) =
      pathPieces cs ++ Text.solid (Cut.between inner 0 (Cut.dots inner)) ++ pathPieces rest := by
  have hback : Counts.inBrackets.run inner = Counts.inBrackets :=
    Counts.run_inBrackets hmute hinner
  have hclose : (Counts.inBrackets.run inner).cuts ']' = true := by
    rw [hback]
    rfl
  have hfresh : (Counts.inBrackets.run inner).step ']' = {} := by
    rw [hback]
    rfl
  simp only [pathPieces_eq_solid]
  rw [Counts.split_append_open hcs, Counts.split_append_cut hclose, hfresh,
    Counts.split_inBrackets hinner, Text.solid_append, Text.solid_append, List.append_assoc]

/-- A text in the brackets that a scan takes no notice of is a path of its own. -/
theorem Path.ofText_append_brackets {p t : String} (hp : (Scan.ofText p.toList).IsClosed)
    (ht : ∀ c ∈ t.toList, Counts.isStructural c = false) :
    ofText (p ++ "[" ++ t ++ "]") = ofText p ++ ofText t := by
  have hinside : Counts.inBrackets.split (t.toList ++ [']']) = [t.toList, []] := by
    have hclose : Counts.inBrackets.split [']'] = [[], []] := by decide
    rw [(Counts.calm_of_plain ht _).split_append, hclose, List.modifyHead_cons, List.append_nil]
  have htext : (p ++ "[" ++ t ++ "]").toList = p.toList ++ '[' :: (t.toList ++ [']']) := by simp
  have hplain : pathPieces t.toList = Text.solid [t.toList] := by
    rw [pathPieces_eq_solid, (Counts.calm_of_plain ht _).1]
  have hpieces : pathPieces (p ++ "[" ++ t ++ "]").toList =
      pathPieces p.toList ++ pathPieces t.toList := by
    rw [htext, hplain, pathPieces_eq_solid, Counts.split_append_open hp, hinside,
      Text.solid_append, ← pathPieces_eq_solid]
    rfl
  rw [ofText, hpieces, List.map_append]
  rfl

/-- The pieces behind a closed text are those of what follows. Behind a dot that is the whole rest;
behind a bracket it is the text up to the bracket that closes it, cut at its dots outside
parentheses and nowhere else, and then the rest. -/
theorem pathPieces_append_closed {cs : List Char} (hcs : (Scan.ofText cs).IsClosed)
    (rest : List Char) :
    pathPieces (cs ++ '.' :: rest) = pathPieces cs ++ pathPieces rest ∧
      ∀ inner, (Scan.ofText inner).mute = 0 → Cut.Balanced inner →
        pathPieces (cs ++ '[' :: (inner ++ ']' :: rest)) =
          pathPieces cs ++ Text.solid (Cut.between inner 0 (Cut.dots inner)) ++ pathPieces rest :=
  ⟨pathPieces_append_dot hcs rest,
    fun _ hmute hinner => pathPieces_append_brackets hcs hmute hinner rest⟩

/-- Brackets inside the brackets, and others in parentheses. None of them cuts. -/
theorem pathPieces_append_closed_nested :
    let cs := "a[0]".toList
    let inner := "b[0]. f(].[)".toList
    let rest := " x]".toList
    (Scan.ofText cs).IsClosed ∧ (Scan.ofText inner).mute = 0 ∧ Cut.Balanced inner ∧
      (pathPieces (cs ++ '.' :: rest) = pathPieces cs ++ pathPieces rest ∧
        pathPieces (cs ++ '[' :: (inner ++ ']' :: rest)) =
          pathPieces cs ++ Text.solid (Cut.between inner 0 (Cut.dots inner)) ++ pathPieces rest) ∧
      pathPieces "a[0][b[0]. f(].[)] x]".toList =
        ["a".toList, "0".toList, "b[0]".toList, "f(].[)".toList, "x]".toList] := by
  intro cs inner rest
  have hcs : (Scan.ofText cs).IsClosed := by decide
  have hmute : (Scan.ofText inner).mute = 0 := by decide
  have hinner : Cut.Balanced inner := by decide +kernel
  have hpieces := pathPieces_append_closed hcs rest
  exact ⟨hcs, hmute, hinner, ⟨hpieces.1, hpieces.2 inner hmute hinner⟩, by decide +kernel⟩

end PathQuery
