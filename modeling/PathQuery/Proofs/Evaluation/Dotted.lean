import PathQuery.Proofs.Evaluation.Composition
import PathQuery.Proofs.Path.Argument

/-!
# Keys behind dots

`Segment.IsPlainKey` is a text that is a key as it stands: it has no structural character, is no
finite number and does not stand in quotes. `evaluate_dotted` says that plain keys joined by dots
lead to what `Value.lookups` finds, up to the first falsy value behind a lookup.
-/

namespace PathQuery

/-! ## Keys -/

namespace Segment

/-- A text that is a key as it stands. -/
structure IsPlainKey (key : String) : Prop where
  ne_empty : key ≠ ""
  trim_eq : Text.trim key.toList = key.toList
  plain : ∀ c ∈ key.toList, Counts.isStructural c = false
  not_number : Binary64.ofText? key.toList = none
  not_quoted : ¬(2 ≤ key.length ∧ key.toList.head? = some '\'' ∧ key.toList.getLast? = some '\'')

variable {key : String}

instance : Decidable (IsPlainKey key) :=
  -- the characters of the key are gone through, not all characters there are
  letI := List.decidableBAll (fun c => Counts.isStructural c = false) key.toList
  decidable_of_iff (key ≠ "" ∧ Text.trim key.toList = key.toList ∧
      (∀ c ∈ key.toList, Counts.isStructural c = false) ∧ Binary64.ofText? key.toList = none ∧
      ¬(2 ≤ key.length ∧ key.toList.head? = some '\'' ∧ key.toList.getLast? = some '\''))
    ⟨fun ⟨h₁, h₂, h₃, h₄, h₅⟩ => ⟨h₁, h₂, h₃, h₄, h₅⟩,
      fun ⟨h₁, h₂, h₃, h₄, h₅⟩ => ⟨h₁, h₂, h₃, h₄, h₅⟩⟩

theorem IsPlainKey.isName (h : IsPlainKey key) : IsName key.toList where
  whole := (Counts.calm_of_plain h.plain {}).1
  solid := by
    rw [h.trim_eq, ne_eq, String.toList_eq_nil_iff]
    exact h.ne_empty
  not_numeral := by
    rw [h.trim_eq]
    exact h.not_number
  not_quoted cs hcs := by
    rw [h.trim_eq] at hcs
    refine h.not_quoted ⟨?_, ?_, ?_⟩
    · rw [← String.length_toList, hcs]
      simp [Text.quoted]
    · rw [hcs]
      rfl
    · rw [hcs, Text.getLast?_quoted]

/-- A plain key spells itself. -/
theorem IsPlainKey.ofText (h : IsPlainKey key) : Path.ofText key = [.key key] := by
  have hname : IsName key.toList := h.isName
  have hcall : '(' ∉ key.toList := fun hmem => absurd (h.plain _ hmem) (by decide)
  have hpath := Path.ofText_of_whole hname.whole hname.solid
  rw [String.ofList_toList, hname.ofText hcall, h.trim_eq, String.ofList_toList] at hpath
  exact hpath

theorem IsPlainKey.isClosed (h : IsPlainKey key) : (Scan.ofText key.toList).IsClosed :=
  Scan.isClosed_iff.mpr (Counts.calm_of_plain h.plain {}).2

end Segment

theorem Path.ofText_dotted {keys : List String} (hne : keys ≠ [])
    (h : ∀ key ∈ keys, Segment.IsPlainKey key) :
    Path.ofText (".".intercalate keys) = keys.map .key := by
  induction keys with
  | nil => exact absurd rfl hne
  | cons key rest ih =>
    rw [List.forall_mem_cons] at h
    obtain ⟨hkey, hrest⟩ := h
    cases rest with
    | nil =>
      rw [String.intercalate_singleton]
      exact hkey.ofText
    | cons next others =>
      rw [String.intercalate_cons_cons, Path.ofText_append_dot hkey.isClosed, hkey.ofText,
        ih (List.cons_ne_nil _ _) hrest]
      rfl

/-! ## Lookups -/

/-- What the keys lead to, one after the other. Where there is no such field, null comes next. -/
def Value.lookups (v : Value) (keys : List String) : Value :=
  keys.foldl (fun v key => (v.field? key).getD .null) v

theorem Value.lookups_cons (v : Value) (key : String) (keys : List String) :
    v.lookups (key :: keys) = ((v.field? key).getD .null).lookups keys := rfl

/-- A walk along keys is the lookups up to the first that leaves a falsy value, or all of them. -/
theorem Path.select_keys {keys : List String} (hne : keys ≠ []) (v : Value) :
    ∃ m, 1 ≤ m ∧ m ≤ keys.length ∧
      (∀ j, 1 ≤ j → j < m → (v.lookups (keys.take j)).isFalsy = false) ∧
      ((v.lookups (keys.take m)).isFalsy = true ∨ m = keys.length) ∧
      Path.select (keys.map .key) v = v.lookups (keys.take m) := by
  induction keys generalizing v with
  | nil => exact absurd rfl hne
  | cons key rest ih =>
    obtain ⟨next, hnext⟩ : ∃ next, next = (v.field? key).getD .null := ⟨_, rfl⟩
    have hselect : Path.select ((key :: rest).map .key) v =
        if next.isFalsy then next else Path.select (rest.map .key) next := by
      rw [List.map_cons, select_cons, Segment.select, ← hnext]
    have hlookups : ∀ j, v.lookups ((key :: rest).take (j + 1)) = next.lookups (rest.take j) := by
      intro j
      rw [List.take_succ_cons, Value.lookups_cons, ← hnext]
    by_cases hstop : next.isFalsy = true ∨ rest = []
    · -- the walk ends behind the first step
      refine ⟨1, Nat.le_refl 1, by simp, fun j hj hj' => by omega, ?_, ?_⟩
      · rw [hlookups 0]
        exact hstop.imp id fun hrest => by simp [hrest]
      · rw [hselect, hlookups 0]
        rcases hstop with hfalsy | hrest
        · rw [if_pos hfalsy]
          rfl
        · rw [hrest, List.map_nil, select_nil, ite_self]
          rfl
    · -- the walk goes on from `next`, and every count of keys is one more
      obtain ⟨htruthy, hrest⟩ := not_or.mp hstop
      obtain ⟨m, hpos, hle, hbefore, hend, heq⟩ := ih hrest next
      refine ⟨m + 1, by omega, by simpa using hle, ?_, ?_, ?_⟩
      · intro j hj hjm
        obtain ⟨i, rfl⟩ : ∃ i, j = i + 1 := ⟨j - 1, by omega⟩
        rw [hlookups i]
        by_cases hi : i = 0
        · subst hi
          exact eq_false_of_ne_true htruthy
        · exact hbefore i (by omega) (by omega)
      · rw [hlookups m, List.length_cons]
        exact hend.imp id (congrArg (· + 1))
      · rw [hselect, if_neg htruthy, hlookups m, heq]

/-- A path of keys and dots leads to what the keys lead to one after the other, up to the first
falsy value behind a lookup, if there is one. -/
theorem evaluate_dotted (document : Value) {keys : List String} (hne : keys ≠ [])
    (hkeys : ∀ key ∈ keys, Segment.IsPlainKey key) (hroot : keys.head? ≠ some rootField) :
    ∃ m, 1 ≤ m ∧ m ≤ keys.length ∧
      (∀ j, 1 ≤ j → j < m → (document.lookups (keys.take j)).isFalsy = false) ∧
      ((document.lookups (keys.take m)).isFalsy = true ∨ m = keys.length) ∧
      evaluate document (".".intercalate keys) = document.lookups (keys.take m) := by
  have hpath : Path.ofText (".".intercalate keys) = keys.map .key := Path.ofText_dotted hne hkeys
  have hpath_ne : Path.ofText (".".intercalate keys) ≠ [] := by
    rw [hpath]
    simpa using hne
  have hhead : (Path.ofText (".".intercalate keys)).head? ≠ some (.key rootField) := by
    rw [hpath]
    intro hkey
    rw [List.head?_map] at hkey
    obtain ⟨key, hfirst, hname⟩ := Option.map_eq_some_iff.mp hkey
    cases hname
    exact hroot hfirst
  rw [evaluate_of_ne_nil hpath_ne, Path.fromRoot_of_head? hhead, hpath]
  exact Path.select_keys hne document

/-- Keys that look like a number, an operator and a quote. The walk is over behind the second. -/
theorem evaluate_dotted_lookalikes :
    let document : Value :=
      .obj [("-inf", .obj [("1e999", .arr []), ("x", .null)]), ("root", .bool true)]
    let keys := ["-inf", "1e999", "find", "'"]
    keys ≠ [] ∧ (∀ key ∈ keys, Segment.IsPlainKey key) ∧ keys.head? ≠ some rootField ∧
      (∃ m, 1 ≤ m ∧ m ≤ keys.length ∧
        (∀ j, 1 ≤ j → j < m → (document.lookups (keys.take j)).isFalsy = false) ∧
        ((document.lookups (keys.take m)).isFalsy = true ∨ m = keys.length) ∧
        evaluate document (".".intercalate keys) = document.lookups (keys.take m)) ∧
      evaluate document "-inf.1e999.find.'" = .arr [] := by
  intro document keys
  have hne : keys ≠ [] := List.cons_ne_nil _ _
  have hkeys : ∀ key ∈ keys, Segment.IsPlainKey key := by decide +kernel
  have hroot : keys.head? ≠ some rootField := by decide
  exact ⟨hne, hkeys, hroot, evaluate_dotted document hne hkeys hroot, by decide +kernel⟩

end PathQuery
