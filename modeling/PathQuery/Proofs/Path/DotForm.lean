import Mathlib.Data.List.Induction
import Mathlib.Tactic.SplitIfs
import PathQuery.Proofs.Evaluation.Selection
import PathQuery.Proofs.Path.Argument

/-!
# Paths with dots only

`Path.dotForm` joins the pieces of a path text by dots. `evaluate_dotForm` says that it is read as
the same path iff the text is shallow (`Scan.IsShallow`), that is, no bracket outside parentheses is
opened inside of another one. The text need not be balanced.

* `Scan.isShallow_iff_whole`: a text is shallow iff each of its pieces, read on its own, is a single
  piece.
* `Counts.mute_run_pieces`: no parenthesis is open behind a piece that ends at a cut.
* `Counts.split_join_iff`: such pieces, joined by dots, come apart again iff none of them is cut.
* `Text.weight` counts characters and marks. `weight_split` and `weight_solid` give the converse: no
  blank can have been trimmed from a dot form that has the pieces of the text.
-/

namespace PathQuery

open Text (Padding solid trim)

namespace Counts

variable {k : Counts} {cs : List Char} {c : Char}

/-! ## Texts that grow at the end -/

theorem exists_split (k : Counts) (cs : List Char) :
    ∃ done last, k.split cs = done ++ [last] :=
  ⟨_, _, (List.dropLast_concat_getLast (k.split_ne_nil cs)).symm⟩

/-- One more character ends the last piece or lengthens it. -/
theorem split_concat {done : List (List Char)} {last : List Char}
    (h : k.split cs = done ++ [last]) (c : Char) :
    k.split (cs ++ [c]) =
      if (k.run cs).cuts c then done ++ [last] ++ [[]] else done ++ [last ++ [c]] := by
  by_cases hcut : (k.run cs).cuts c = true
  · rw [if_pos hcut, split_append_cut hcut, h]
    rfl
  · rw [if_neg hcut, split_append, split, if_neg hcut]
    simp [h, split]

/-- A text is its only piece iff there is only one. -/
theorem whole_iff_length : k.split cs = [cs] ↔ (k.split cs).length = 1 := by
  constructor
  · intro h
    rw [h, List.length_singleton]
  · intro h
    obtain ⟨piece, hpiece⟩ := List.length_eq_one_iff.mp h
    rw [hpiece, eq_of_split_eq_singleton hpiece]

/-- A longer text is not cut iff the shorter one is not, nor at the character behind it. -/
theorem whole_concat_iff :
    k.split (cs ++ [c]) = [cs ++ [c]] ↔ k.split cs = [cs] ∧ (k.run cs).cuts c = false := by
  obtain ⟨done, last, h⟩ := k.exists_split cs
  rw [whole_iff_length, whole_iff_length, split_concat h, h]
  by_cases hcut : (k.run cs).cuts c = true
  · simp [hcut]
  · simp [hcut]

/-! ## What is open behind a piece -/

/-- Brackets have no influence on the count of parentheses. -/
theorem mute_step_congr {j : Counts} (h : k.mute = j.mute) (c : Char) :
    (k.step c).mute = (j.step c).mute := by
  unfold step
  rw [h]
  split_ifs <;> simp [h]

/-- No parenthesis is open behind a cut. -/
theorem mute_step_of_cuts (h : k.cuts c = true) : (k.step c).mute = 0 := by
  obtain ⟨hmute, (rfl | ⟨rfl, -⟩) | ⟨rfl, -⟩⟩ := cuts_iff.mp h
  · rw [step_dot, hmute]
  · simp [step, hmute]
  · simp [step, hmute]

/-- At most one bracket is open behind a cut. -/
theorem depth_step_of_cuts (hk : k.depth ≤ 1) (h : k.cuts c = true) : (k.step c).depth ≤ 1 := by
  obtain ⟨hmute, (rfl | ⟨rfl, hdepth⟩) | ⟨rfl, hdepth⟩⟩ := cuts_iff.mp h
  · rw [step_dot]
    exact hk
  · simp [step, hmute, hdepth]
  · simp [step, hmute, hdepth]

/-- A character that does not cut, with a bracket open around it perhaps, opens another one exactly
if it would cut where none is open. -/
theorem depth_step_le_one_iff {j : Counts} (hmute : j.mute = k.mute) (hj : j.depth = 0)
    (hk : k.depth ≤ 1) (hcut : k.cuts c = false) :
    (k.step c).depth ≤ 1 ↔ j.cuts c = false := by
  by_cases hopen : k.mute = 0 ∧ c = '['
  · obtain ⟨hzero, rfl⟩ := hopen
    have hdepth : k.depth = 1 := by
      have hne : k.depth ≠ 0 := by simpa [cuts, hzero] using hcut
      omega
    simp [step, cuts, hmute, hzero, hj, hdepth]
  · refine iff_of_true ?_ ?_
    · unfold step
      split_ifs <;> simp_all
    · simp only [cuts] at hcut ⊢
      simp_all

/-- As long as nothing is cut no bracket is counted. -/
theorem depth_run_of_whole (h : ({} : Counts).split cs = [cs]) :
    (({} : Counts).run cs).depth = 0 := by
  induction cs using List.reverseRecOn with
  | nil => rfl
  | append_singleton cs c ih =>
    obtain ⟨hcs, hcut⟩ := whole_concat_iff.mp h
    have hdepth := ih hcs
    rw [run_append, run_cons, run_nil]
    simp only [cuts, hdepth] at hcut
    unfold step
    split_ifs <;> simp_all

/-- Nothing is open behind a text that is not cut, if no parenthesis is. -/
theorem run_of_whole (h : ({} : Counts).split cs = [cs])
    (hmute : (({} : Counts).run cs).mute = 0) : ({} : Counts).run cs = {} := by
  have hdepth := depth_run_of_whole h
  calc ({} : Counts).run cs
      = ⟨(({} : Counts).run cs).mute, (({} : Counts).run cs).depth⟩ := rfl
    _ = {} := by rw [hmute, hdepth]

/-- As many parentheses are open behind a piece, read on its own, as at that place in the text. So
none is open behind a piece that ends at a cut. -/
theorem mute_run_pieces {done : List (List Char)} {last : List Char}
    (h : ({} : Counts).split cs = done ++ [last]) :
    (∀ piece ∈ done, (({} : Counts).run piece).mute = 0) ∧
      (({} : Counts).run last).mute = (({} : Counts).run cs).mute := by
  induction cs using List.reverseRecOn generalizing done last with
  | nil =>
    have hnil : [[]] = done ++ [last] := h
    obtain ⟨rfl, rfl⟩ : done = [] ∧ last = [] := by
      simpa using List.append_eq_singleton_iff.mp hnil.symm
    exact ⟨nofun, rfl⟩
  | append_singleton cs c ih =>
    obtain ⟨done', last', h'⟩ := ({} : Counts).exists_split cs
    obtain ⟨hdone, hlast⟩ := ih h'
    rw [split_concat h'] at h
    simp only [run_append, run_cons, run_nil]
    by_cases hcut : (({} : Counts).run cs).cuts c = true
    · -- the character ends the last piece
      have hmute : (({} : Counts).run cs).mute = 0 := (cuts_iff.mp hcut).1
      rw [if_pos hcut] at h
      obtain ⟨rfl, hnil⟩ := List.append_inj' h rfl
      rw [← List.head_eq_of_cons_eq hnil, run_nil, mute_step_of_cuts hcut]
      refine ⟨fun piece hpiece => ?_, rfl⟩
      rcases List.mem_append.mp hpiece with hfront | hend
      · exact hdone piece hfront
      · rw [List.mem_singleton.mp hend, hlast, hmute]
    · -- the character becomes part of the last piece
      rw [if_neg hcut] at h
      obtain ⟨rfl, hpiece⟩ := List.append_inj' h rfl
      rw [← List.head_eq_of_cons_eq hpiece, run_append]
      exact ⟨hdone, mute_step_congr hlast c⟩

end Counts

/-! ## Brackets inside of brackets -/

namespace Scan

/-- No bracket is opened inside of another one, those in parentheses aside. -/
def IsShallow (cs : List Char) : Prop := ∀ i ≤ cs.length, (ofText (cs.take i)).depth ≤ 1

instance (cs : List Char) : Decidable (IsShallow cs) := Nat.decidableBallLE _ _

theorem depth_ofText (cs : List Char) : (ofText cs).depth = (({} : Counts).run cs).depth := by
  rw [← counts_ofText]
  rfl

/-- A longer text is shallow iff the shorter one is and the last character opens no second bracket.
-/
theorem isShallow_concat {cs : List Char} {c : Char} :
    IsShallow (cs ++ [c]) ↔ IsShallow cs ∧ ((({} : Counts).run cs).step c).depth ≤ 1 := by
  have hlength : (cs ++ [c]).length = cs.length + 1 := by simp
  have hfront : ∀ i ≤ cs.length, (cs ++ [c]).take i = cs.take i := fun i hi =>
    List.take_append_of_le_length hi
  have hwhole : (ofText ((cs ++ [c]).take (cs.length + 1))).depth =
      ((({} : Counts).run cs).step c).depth := by
    rw [← hlength, List.take_length, depth_ofText, Counts.run_append]
    rfl
  constructor
  · intro h
    refine ⟨fun i hi => ?_, hwhole ▸ h _ (by omega)⟩
    rw [← hfront i hi]
    exact h i (by omega)
  · rintro ⟨h, hlast⟩ i hi
    rcases Nat.lt_or_eq_of_le hi with hlt | rfl
    · rw [hfront i (by omega)]
      exact h i (by omega)
    · rw [hlength, hwhole]
      exact hlast

/-- Exactly in a shallow text is each piece a single piece when it is read on its own. -/
theorem isShallow_iff_whole (cs : List Char) :
    IsShallow cs ↔
      ∀ piece ∈ ({} : Counts).split cs, ({} : Counts).split piece = [piece] := by
  induction cs using List.reverseRecOn with
  | nil => exact iff_of_true (by decide) (by simp [Counts.split])
  | append_singleton cs c ih =>
    obtain ⟨done, last, h⟩ := ({} : Counts).exists_split cs
    obtain ⟨-, hmute⟩ := Counts.mute_run_pieces h
    have hdepth : IsShallow cs → (({} : Counts).run cs).depth ≤ 1 := by
      intro hshallow
      have hwhole := hshallow cs.length (Nat.le_refl _)
      rwa [List.take_length, depth_ofText] at hwhole
    rw [h] at ih
    rw [isShallow_concat, Counts.split_concat h]
    -- the character ends the last piece, or it makes that piece longer
    cases hcut : (({} : Counts).run cs).cuts c with
    | true =>
      rw [if_pos rfl, List.forall_mem_append, List.forall_mem_singleton, ← ih]
      exact and_congr_right fun hshallow =>
        iff_of_true (Counts.depth_step_of_cuts (hdepth hshallow) hcut) rfl
    | false =>
      rw [if_neg Bool.false_ne_true, List.forall_mem_append, List.forall_mem_singleton,
        Counts.whole_concat_iff, ← and_assoc, ← List.forall_mem_singleton (p := fun piece =>
          ({} : Counts).split piece = [piece]), ← List.forall_mem_append, ← ih]
      refine and_congr_right fun hshallow => ?_
      have hlast : ({} : Counts).split last = [last] :=
        ih.mp hshallow last (List.mem_append_right _ List.mem_cons_self)
      exact Counts.depth_step_le_one_iff hmute (Counts.depth_run_of_whole hlast)
        (hdepth hshallow) hcut

end Scan

/-! ## Blanks around a piece -/

namespace Counts

/-- Blanks around a text do not change the number of its pieces. -/
theorem length_split_around (k : Counts) (p : Padding) (cs : List Char) :
    (k.split (p.around cs)).length = (k.split cs).length := by
  obtain ⟨done, last, h⟩ := k.exists_split cs
  have hafter := (calm_blanks p.after (k.run cs)).1
  rw [Padding.around, (calm_blanks p.before k).split_append, List.length_modifyHead, split_append,
    hafter]
  simp [h]

/-- Blanks around a text do not decide whether it is cut. -/
theorem whole_trim_iff {k : Counts} {cs : List Char} :
    k.split (trim cs) = [trim cs] ↔ k.split cs = [cs] := by
  obtain ⟨p, hp⟩ := Text.exists_around cs
  have hlength := length_split_around k p (trim cs)
  rw [hp] at hlength
  rw [whole_iff_length, whole_iff_length, hlength]

theorem run_trim (k : Counts) (cs : List Char) : k.run (trim cs) = k.run cs := by
  obtain ⟨p, hp⟩ := Text.exists_around cs
  calc k.run (trim cs) = k.run (p.around (trim cs)) := by
        rw [Padding.around, run_append, run_append, (calm_blanks p.before k).2,
          (calm_blanks p.after _).2]
    _ = k.run cs := by rw [hp]

end Counts

namespace Text

theorem solid_solid (pieces : List (List Char)) : solid (solid pieces) = solid pieces := by
  induction pieces with
  | nil => rfl
  | cons piece rest ih =>
    rw [solid_cons]
    split
    · exact ih
    · rename_i hsolid
      rw [solid_cons, trim_trim, if_neg hsolid, ih]

theorem mem_solid {piece : List Char} {pieces : List (List Char)} (h : piece ∈ pieces) :
    trim piece = [] ∨ trim piece ∈ solid pieces := by
  rw [or_iff_not_imp_left]
  intro hsolid
  exact List.mem_filter.mpr ⟨List.mem_map_of_mem h, by simpa using hsolid⟩

theorem forall_mem_solid {P : List Char → Prop} {pieces : List (List Char)}
    (h : ∀ piece ∈ pieces, P (trim piece)) : ∀ piece ∈ solid pieces, P piece := by
  intro piece hpiece
  obtain ⟨raw, hraw, rfl⟩ := List.mem_map.mp (List.mem_filter.mp hpiece).1
  exact h raw hraw

/-- What comes before the last solid text comes from before the last text. -/
theorem forall_mem_dropLast_solid {P : List Char → Prop} {done : List (List Char)}
    {last : List Char} (h : ∀ piece ∈ done, P (trim piece)) :
    ∀ piece ∈ (solid (done ++ [last])).dropLast, P piece := by
  rw [solid_append, solid_cons]
  split
  · rw [solid_nil, List.append_nil]
    exact fun piece hpiece => forall_mem_solid h piece (List.dropLast_subset _ hpiece)
  · rw [solid_nil, List.dropLast_concat]
    exact forall_mem_solid h

/-! ## Counting characters -/

/-- The length of the texts, each with one character more for a mark behind it. -/
def weight : List (List Char) → Nat
  | [] => 0
  | piece :: rest => piece.length + 1 + weight rest

/-- The weight of texts is the length of the texts joined by a mark, and one more. -/
theorem weight_join {pieces : List (List Char)} (hne : pieces ≠ []) :
    (['.'].intercalate pieces).length + 1 = weight pieces := by
  induction pieces with
  | nil => exact absurd rfl hne
  | cons piece rest ih =>
    cases rest with
    | nil => rw [List.intercalate_singleton, weight, weight]
    | cons next others =>
      have hrest := ih (List.cons_ne_nil _ _)
      rw [weight, ← hrest, List.intercalate_cons_cons, List.length_append, List.length_append,
        List.length_singleton]
      omega

/-- Texts weigh less when blanks are taken away. -/
theorem weight_solid (pieces : List (List Char)) :
    weight (solid pieces) ≤ weight pieces ∧
      (weight (solid pieces) = weight pieces → solid pieces = pieces) := by
  induction pieces with
  | nil => exact ⟨Nat.le_refl _, fun _ => rfl⟩
  | cons piece rest ih =>
    obtain ⟨hle, heq⟩ := ih
    have htrim : (trim piece).length ≤ piece.length := (trim_sublist piece).length_le
    rw [solid_cons]
    split
    · rw [weight]
      exact ⟨by omega, fun h => by omega⟩
    · rw [weight, weight]
      refine ⟨by omega, fun h => ?_⟩
      rw [(trim_sublist piece).eq_of_length (by omega), heq (by omega)]

end Text

/-! ## Pieces joined by dots -/

namespace Counts

variable {k : Counts} {cs : List Char}

/-- A cut takes one character. -/
theorem weight_split (k : Counts) (cs : List Char) : Text.weight (k.split cs) = cs.length + 1 := by
  induction cs generalizing k with
  | nil => rfl
  | cons c cs ih =>
    have hrest := ih (k.step c)
    rw [split, List.length_cons, ← hrest]
    split
    · rw [Text.weight, List.length_nil]
      omega
    · obtain ⟨piece, rest, h⟩ := List.exists_cons_of_ne_nil ((k.step c).split_ne_nil cs)
      rw [h, List.modifyHead_cons, Text.weight, Text.weight, List.length_cons]
      omega

/-- A text that is its own first piece is not cut. -/
theorem whole_of_append {others rest : List (List Char)}
    (h : k.split cs ++ others = cs :: rest) : k.split cs = [cs] := by
  have hweight := k.weight_split cs
  obtain ⟨piece, more, hsplit⟩ := List.exists_cons_of_ne_nil (k.split_ne_nil cs)
  rw [hsplit, List.cons_append] at h
  obtain ⟨rfl, -⟩ := List.cons_eq_cons.mp h
  rw [hsplit, Text.weight] at hweight
  cases more with
  | nil => exact hsplit
  | cons next others =>
    rw [Text.weight] at hweight
    omega

/-- Pieces with no open parenthesis behind them come apart where they were joined exactly if none of
them is cut. -/
theorem split_join_iff {pieces : List (List Char)} (hne : pieces ≠ [])
    (hmute : ∀ piece ∈ pieces.dropLast, (({} : Counts).run piece).mute = 0) :
    ({} : Counts).split (['.'].intercalate pieces) = pieces ↔
      ∀ piece ∈ pieces, ({} : Counts).split piece = [piece] := by
  induction pieces with
  | nil => exact absurd rfl hne
  | cons piece rest ih =>
    cases rest with
    | nil => rw [List.intercalate_singleton, List.forall_mem_singleton]
    | cons next others =>
      rw [List.dropLast_cons_cons, List.forall_mem_cons] at hmute
      obtain ⟨hpiece, hrest⟩ := hmute
      -- the dot behind the first piece is a cut, however many brackets are open there
      rw [List.forall_mem_cons, ← ih (List.cons_ne_nil _ _) hrest, List.intercalate_cons_cons,
        List.append_assoc, List.singleton_append, split_append_dot hpiece]
      constructor
      · intro h
        have hwhole := whole_of_append h
        rw [hwhole, run_of_whole hwhole hpiece, List.singleton_append, List.cons_eq_cons] at h
        exact ⟨hwhole, h.2⟩
      · rintro ⟨hwhole, h⟩
        rw [run_of_whole hwhole hpiece, hwhole, h]
        rfl

end Counts

/-- The pieces of a path text are not cut on their own iff the text is shallow. -/
theorem forall_mem_pathPieces_whole_iff (cs : List Char) :
    (∀ piece ∈ pathPieces cs, ({} : Counts).split piece = [piece]) ↔ Scan.IsShallow cs := by
  rw [pathPieces_eq_solid, Scan.isShallow_iff_whole]
  refine ⟨fun h piece hpiece => ?_, fun h => Text.forall_mem_solid fun piece hpiece => ?_⟩
  · rw [← Counts.whole_trim_iff]
    rcases Text.mem_solid hpiece with hblank | hmem
    · -- a blank piece is dropped, but then it is not cut either
      rw [hblank]
      rfl
    · exact h _ hmem
  · rw [Counts.whole_trim_iff]
    exact h piece hpiece

/-- No parenthesis is open behind a piece other than the last one. -/
theorem mute_run_of_mem_dropLast {cs piece : List Char} (h : piece ∈ (pathPieces cs).dropLast) :
    (({} : Counts).run piece).mute = 0 := by
  obtain ⟨done, last, hsplit⟩ := ({} : Counts).exists_split cs
  obtain ⟨hmute, -⟩ := Counts.mute_run_pieces hsplit
  rw [pathPieces_eq_solid, hsplit] at h
  refine Text.forall_mem_dropLast_solid (P := fun piece => (({} : Counts).run piece).mute = 0)
    (fun raw hraw => ?_) piece h
  rw [Counts.run_trim, hmute raw hraw]

/-- Exactly a shallow text has the same pieces as its dot form. -/
theorem pathPieces_join_iff (cs : List Char) :
    pathPieces (['.'].intercalate (pathPieces cs)) = pathPieces cs ↔ Scan.IsShallow cs := by
  by_cases hempty : pathPieces cs = []
  · rw [← forall_mem_pathPieces_whole_iff, hempty]
    exact iff_of_true rfl nofun
  · rw [← forall_mem_pathPieces_whole_iff,
      ← Counts.split_join_iff hempty fun piece => mute_run_of_mem_dropLast,
      pathPieces_eq_solid (['.'].intercalate _)]
    obtain ⟨-, hsolid⟩ :=
      Text.weight_solid (({} : Counts).split (['.'].intercalate (pathPieces cs)))
    constructor
    · intro h
      -- the pieces that are left weigh as much as the text, so nothing was taken away from them
      rw [h, Counts.weight_split, Text.weight_join hempty] at hsolid
      exact (hsolid rfl).symm
    · intro h
      rw [h, pathPieces_eq_solid, Text.solid_solid]

/-! ## The dot form -/

/-- The path text with nothing but dots between its pieces. -/
def Path.dotForm (text : String) : String :=
  ".".intercalate ((pathPieces text.toList).map String.ofList)

theorem Path.toList_dotForm (text : String) :
    (dotForm text).toList = ['.'].intercalate (pathPieces text.toList) := by
  rw [dotForm, String.toList_intercalate]
  simp

/-- The dot form of a path text has the same pieces as the text, if no bracket is opened inside of
another one, and only then. So it is read as the same path and selects the same from every document,
whether the text is balanced or not. -/
theorem evaluate_dotForm (text : String) :
    (pathPieces (Path.dotForm text).toList = pathPieces text.toList ↔
        Scan.IsShallow text.toList) ∧
      (Scan.IsShallow text.toList →
        Path.ofText (Path.dotForm text) = Path.ofText text ∧
          ∀ document, evaluate document (Path.dotForm text) = evaluate document text) := by
  have hpieces : pathPieces (Path.dotForm text).toList = pathPieces text.toList ↔
      Scan.IsShallow text.toList := by
    rw [Path.toList_dotForm]
    exact pathPieces_join_iff text.toList
  refine ⟨hpieces, fun h => ?_⟩
  have hpath : Path.ofText (Path.dotForm text) = Path.ofText text := by
    rw [Path.ofText, hpieces.mpr h, Path.ofText]
  refine ⟨hpath, fun document => ?_⟩
  rw [evaluate_eq, evaluate_eq, hpath]

/-- Brackets and parentheses that open or close nothing, and blanks between all of them. -/
theorem evaluate_dotForm_unbalanced :
    let text := " a)] [ ' b ' ][ 0.c ] . ] map(x[y].[[ "
    Scan.IsShallow text.toList ∧
      Path.dotForm text = "a)].' b '.0.c.] map(x[y].[[" ∧
      pathPieces (Path.dotForm text).toList = pathPieces text.toList ∧
      Path.ofText (Path.dotForm text) = Path.ofText text ∧
      evaluate .null (Path.dotForm text) = evaluate .null text := by
  intro text
  obtain ⟨hpieces, hsame⟩ := evaluate_dotForm text
  have h : Scan.IsShallow text.toList := by decide +kernel
  exact ⟨h, by decide +kernel, hpieces.mpr h, (hsame h).1, (hsame h).2 .null⟩

/-- One level deeper the dot form falls apart. -/
example : pathPieces (Path.dotForm "a[b[0]]").toList = [['a'], ['b'], ['0']] := by decide +kernel

end PathQuery
