import Mathlib.Algebra.Order.Group.Finset
import Mathlib.Order.Interval.Finset.Nat
import PathQuery.Proofs.Path.Splitting

/-!
# Where a path text is cut

The cuts of a path text by position, without a scan.

* `Cut.excess` is the largest surplus of opening over closing positions among all starting points,
  and `excess_succ` shows that it counts with a floor at zero.
* `Cut.mute` and `Cut.depth` are such counts of parentheses and of brackets outside parentheses, and
  `Cut.positions` are the positions at which the text is cut.
* `Counts.split_eq_between`: a scan that cuts at given positions finds the texts between them.
* `pathPieces_eq_between`: the pieces of a path text are the texts between its cuts, trimmed,
  without empty ones.
-/

namespace PathQuery

namespace Cut

/-! ## Floored counts -/

section

variable (opens closes : Nat → Prop) [DecidablePred opens] [DecidablePred closes]

/-- How many more positions from `j` up to `i` open than close. -/
def surplus (j i : Nat) : Int :=
  ((Finset.Ico j i).filter opens).card - ((Finset.Ico j i).filter closes).card

/-- The largest surplus up to `i`, from wherever one begins to count. -/
def excess (i : Nat) : Int :=
  (Finset.range (i + 1)).sup' Finset.nonempty_range_add_one fun j => surplus opens closes j i

/-- What a single position adds. -/
def gain (i : Nat) : Int := (if opens i then 1 else 0) - (if closes i then 1 else 0)

/-- One position more is counted once, if it has the property. -/
theorem card_filter_succ {j i : Nat} (h : j ≤ i) (p : Nat → Prop) [DecidablePred p] :
    ((Finset.Ico j (i + 1)).filter p).card =
      ((Finset.Ico j i).filter p).card + if p i then 1 else 0 := by
  rw [Nat.Ico_succ_right_eq_insert_Ico h, Finset.filter_insert]
  split
  · rw [Finset.card_insert_of_notMem]
    simp
  · rfl

theorem surplus_self (i : Nat) : surplus opens closes i i = 0 := by
  simp [surplus]

/-- One position more adds its gain. -/
theorem surplus_succ {j i : Nat} (h : j ≤ i) :
    surplus opens closes j (i + 1) = surplus opens closes j i + gain opens closes i := by
  rw [surplus, surplus, gain, card_filter_succ h, card_filter_succ h]
  split_ifs <;> omega

theorem excess_zero : excess opens closes 0 = 0 := by
  simp [excess, surplus_self]

/-- The largest surplus either goes on from the position before or begins anew. -/
theorem excess_succ (i : Nat) :
    excess opens closes (i + 1) = max 0 (excess opens closes i + gain opens closes i) := by
  have hgain : ∀ j ∈ Finset.range (i + 1),
      surplus opens closes j (i + 1) = surplus opens closes j i + gain opens closes i := by
    intro j hj
    exact surplus_succ opens closes (Nat.le_of_lt_succ (Finset.mem_range.mp hj))
  calc excess opens closes (i + 1)
      = (insert (i + 1) (Finset.range (i + 1))).sup' (Finset.insert_nonempty _ _)
          fun j => surplus opens closes j (i + 1) :=
        Finset.sup'_congr _ Finset.range_add_one fun _ _ => rfl
    _ = max (surplus opens closes (i + 1) (i + 1))
          ((Finset.range (i + 1)).sup' Finset.nonempty_range_add_one
            fun j => surplus opens closes j (i + 1)) :=
        Finset.sup'_insert _ _
    _ = max 0 ((Finset.range (i + 1)).sup' Finset.nonempty_range_add_one
          fun j => surplus opens closes j i + gain opens closes i) := by
        rw [surplus_self, Finset.sup'_congr _ rfl hgain]
    _ = max 0 (excess opens closes i + gain opens closes i) := by
        rw [excess, Finset.sup'_add]

end

/-! ## Cuts by position -/

variable (cs : List Char)

/-- How many parentheses are open in front of a position. -/
def mute (i : Nat) : Int := excess (cs[·]? = some '(') (cs[·]? = some ')') i

/-- How many brackets are open in front of a position. Those in parentheses do not count. -/
def depth (i : Nat) : Int :=
  excess (fun k => mute cs k = 0 ∧ cs[k]? = some '[') (fun k => mute cs k = 0 ∧ cs[k]? = some ']') i

/-- The text is cut at the position: at a dot, or at a bracket of an outermost pair. -/
def At (i : Nat) : Prop :=
  mute cs i = 0 ∧
    ((cs[i]? = some '.' ∨ cs[i]? = some '[' ∧ depth cs i = 0) ∨ cs[i]? = some ']' ∧ depth cs i = 1)

instance (i : Nat) : Decidable (At cs i) := inferInstanceAs (Decidable (_ ∧ _))

/-- All positions at which the text is cut, from left to right. -/
def positions : List Nat := (List.range cs.length).filter (At cs ·)

/-- The texts between the cuts, from a first position on and up to the end of the text. -/
def between : Nat → List Nat → List (List Char)
  | start, [] => [cs.drop start]
  | start, cut :: cuts => (cs.take cut).drop start :: between (cut + 1) cuts

end Cut

/-! ## What the scan counts -/

namespace Counts

variable (k : Counts) (c : Char)

/-- The count of parentheses in integers, with its floor. -/
theorem mute_step :
    ((k.step c).mute : Int) =
      max (0 : Int)
        ((k.mute : Int) + ((if c = '(' then 1 else 0) - (if c = ')' then 1 else 0))) := by
  unfold step
  split_ifs <;> simp_all <;> omega

/-- The count of brackets in integers, with its floor. -/
theorem depth_step :
    ((k.step c).depth : Int) =
      max (0 : Int) ((k.depth : Int) + ((if k.mute = 0 ∧ c = '[' then 1 else 0) -
        (if k.mute = 0 ∧ c = ']' then 1 else 0))) := by
  unfold step
  split_ifs <;> simp_all <;> omega

theorem run_take_succ (k : Counts) {cs : List Char} {i : Nat} (h : i < cs.length) :
    k.run (cs.take (i + 1)) = (k.run (cs.take i)).step cs[i] := by
  rw [List.take_succ_eq_append_getElem h, run_append, run_cons, run_nil]

/-- How many parentheses are open behind the first characters. Brackets have no say in it. -/
theorem mute_run_take {k : Counts} (hk : k.mute = 0) {cs : List Char} {i : Nat}
    (h : i ≤ cs.length) : ((k.run (cs.take i)).mute : Int) = Cut.mute cs i := by
  induction i with
  | zero =>
    rw [Cut.mute, Cut.excess_zero, List.take_zero, run_nil, hk]
    rfl
  | succ i ih =>
    have hmute := ih (by omega)
    have hget : cs[i]? = some cs[i] := List.getElem?_eq_getElem h
    rw [run_take_succ k h, mute_step, hmute, Cut.mute, Cut.mute, Cut.excess_succ, Cut.gain]
    simp only [hget, Option.some.injEq]

/-- What the character behind the first ones adds to the open brackets. -/
theorem bracket_gain {k : Counts} (hk : k.mute = 0) {cs : List Char} {i : Nat}
    (h : i < cs.length) :
    Cut.gain (fun j => Cut.mute cs j = 0 ∧ cs[j]? = some '[')
        (fun j => Cut.mute cs j = 0 ∧ cs[j]? = some ']') i =
      (if (k.run (cs.take i)).mute = 0 ∧ cs[i] = '[' then 1 else 0) -
        (if (k.run (cs.take i)).mute = 0 ∧ cs[i] = ']' then 1 else 0) := by
  have hget : cs[i]? = some cs[i] := List.getElem?_eq_getElem h
  have hzero : Cut.mute cs i = 0 ↔ (k.run (cs.take i)).mute = 0 := by
    rw [← mute_run_take hk (Nat.le_of_lt h)]
    omega
  simp only [Cut.gain, hget, Option.some.injEq, hzero]

/-- How many brackets are open behind the first characters of a text. -/
theorem depth_run_take {cs : List Char} {i : Nat} (h : i ≤ cs.length) :
    ((({} : Counts).run (cs.take i)).depth : Int) = Cut.depth cs i := by
  induction i with
  | zero =>
    rw [Cut.depth, Cut.excess_zero]
    rfl
  | succ i ih =>
    have hdepth := ih (by omega)
    rw [run_take_succ {} h, depth_step, hdepth, Cut.depth, Cut.depth, Cut.excess_succ,
      bracket_gain (k := {}) rfl h]

/-- A piece ends exactly where the text is cut. -/
theorem cuts_run_iff {cs before rest : List Char} {c : Char} (h : cs = before ++ c :: rest) :
    (({} : Counts).run before).cuts c = true ↔ Cut.At cs before.length := by
  have htake : cs.take before.length = before := by simp [h]
  have hget : cs[before.length]? = some c := by simp [h]
  have hle : before.length ≤ cs.length := by simp [h]
  have hmute := mute_run_take (k := {}) rfl hle
  have hdepth := depth_run_take hle
  rw [htake] at hmute hdepth
  rw [cuts_iff, Cut.At, ← hmute, ← hdepth, hget]
  simp only [Option.some.injEq]
  norm_cast

section

variable {k : Counts} {P : Nat → Prop} [DecidablePred P] {cs : List Char}

/-- The pieces of what is still to be read, with the part of the open piece that has been read in
front: they are the texts between the cuts that are still to come. -/
theorem between_of_append
    (hcuts : ∀ before c rest, cs = before ++ c :: rest →
      ((k.run before).cuts c = true ↔ P before.length))
    (rest before : List Char) (start : Nat) (htext : cs = before ++ rest)
    (hstart : start ≤ before.length) :
    Cut.between cs start ((List.range' before.length rest.length).filter (P ·)) =
      ((k.run before).split rest).modifyHead (before.drop start ++ ·) := by
  induction rest generalizing before start with
  | nil => simp [Cut.between, split, htext]
  | cons c rest ih =>
    have htext' : cs = (before ++ [c]) ++ rest := by simp [htext]
    have hlength : (before ++ [c]).length = before.length + 1 := by simp
    have hrun : k.run (before ++ [c]) = (k.run before).step c := by
      rw [run_append, run_cons, run_nil]
    rw [List.length_cons, List.range'_succ, List.filter_cons, split]
    by_cases hcut : (k.run before).cuts c = true
    · -- the open piece ends here, and the next one starts behind the character
      have hnext := ih (before ++ [c]) (before.length + 1) htext' (by omega)
      have hfresh : (before ++ [c]).drop (before.length + 1) = [] :=
        List.drop_eq_nil_of_le (by omega)
      rw [hlength, hrun, hfresh] at hnext
      have htake : (cs.take before.length).drop start = before.drop start := by simp [htext]
      rw [if_pos (by simpa using (hcuts before c rest htext).mp hcut), Cut.between, hnext, htake,
        if_pos hcut, List.modifyHead_cons, List.append_nil]
      exact congrArg _ (congrFun List.modifyHead_id _)
    · -- the character becomes part of the open piece
      have hnext := ih (before ++ [c]) start htext' (by omega)
      rw [hlength, hrun, List.drop_append_of_le_length hstart] at hnext
      rw [if_neg (by simpa using (hcuts before c rest htext).not.mp hcut), if_neg hcut, hnext]
      simp [Function.comp_def]

/-- A scan that cuts at the positions with some property finds the texts between these. -/
theorem split_eq_between
    (hcuts : ∀ before c rest, cs = before ++ c :: rest →
      ((k.run before).cuts c = true ↔ P before.length)) :
    k.split cs = Cut.between cs 0 ((List.range cs.length).filter (P ·)) := by
  have hbetween := between_of_append hcuts cs [] 0 rfl (Nat.le_refl _)
  rw [List.range_eq_range']
  exact (hbetween.trans (congrFun List.modifyHead_id _)).symm

end

end Counts

/-- The pieces of a path text are the texts between the cuts. -/
theorem rawPieces_eq_between (cs : List Char) :
    rawPieces cs = Cut.between cs 0 (Cut.positions cs) := by
  rw [rawPieces_eq_split, Counts.split_eq_between fun _ _ _ => Counts.cuts_run_iff]
  rfl

/-- Splitting a path text gives the texts between the cuts, from left to right and each of them
once, trimmed, and without those of which nothing is left. -/
theorem pathPieces_eq_between (cs : List Char) :
    pathPieces cs =
      ((Cut.between cs 0 (Cut.positions cs)).map Text.trim).filter (!·.isEmpty) := by
  rw [pathPieces, rawPieces_eq_between]

/-- Only the outer pair of brackets cuts, and nothing cuts behind a parenthesis that stays open. -/
example : Cut.positions "a[b[0]].(c.".toList = [1, 6, 7] := by decide

end PathQuery
