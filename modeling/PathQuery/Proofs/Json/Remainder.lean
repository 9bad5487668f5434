import PathQuery.Proofs.Json.Reading

/-!
# What reading leaves

`Json.Leaves n outcome` bounds what is left behind a value that is read. No part of the reader
leaves more than it was given (`readValue_leaves`), and a string or a colon leaves less, so a loop
with as many rounds as there are characters does not run out of them first.
-/

namespace PathQuery.Json

/-- No more than so many characters are left behind what is read. -/
def Leaves {α : Type} (n : Nat) (outcome : Outcome α) : Prop :=
  ∀ a rest, outcome = .ok (a, rest) → rest.length ≤ n

section

variable {α β : Type} {n : Nat}

theorem leaves_error (fault : JsonFault) : Leaves n (.error fault : Outcome α) := nofun

theorem leaves_ok {rest : List Char} (h : rest.length ≤ n) (a : α) : Leaves n (.ok (a, rest)) := by
  rintro _ _ ⟨⟩
  exact h

theorem leaves_bind {step : Except JsonFault β} {next : β → Outcome α}
    (h : ∀ b, step = .ok b → Leaves n (next b)) : Leaves n (step.bind next) := by
  cases step with
  | error fault => exact leaves_error fault
  | ok b => exact h b rfl

theorem Leaves.map {step : Outcome β} (h : Leaves n step) (f : β → α) :
    Leaves n (step.map fun (b, rest) => (f b, rest)) := by
  cases step with
  | error fault => exact leaves_error fault
  | ok read => exact leaves_ok (h read.1 read.2 rfl) _

theorem Leaves.mono {outcome : Outcome α} {m : Nat} (h : Leaves m outcome) (hle : m ≤ n) :
    Leaves n outcome :=
  fun a rest hread => Nat.le_trans (h a rest hread) hle

end

theorem length_skipBlanks_le (cs : List Char) : (skipBlanks cs).length ≤ cs.length :=
  (List.dropWhile_suffix isBlank).length_le

theorem readWord_leaves (v : Value) (expected cs : List Char) :
    Leaves cs.length (readWord v expected cs) := by
  induction expected generalizing cs with
  | nil => exact leaves_ok (Nat.le_refl _) v
  | cons e expected ih =>
    cases cs with
    | nil => exact leaves_error _
    | cons c rest =>
      rw [readWord]
      split
      · exact (ih rest).mono (Nat.le_succ _)
      · exact leaves_error _

/-! ## Numbers -/

theorem readFraction_leaves (cs : List Char) : Leaves cs.length (readFraction cs) := by
  unfold readFraction
  split
  · split
    · exact leaves_error _
    · exact leaves_ok (Nat.le_succ_of_le (List.dropWhile_suffix _).length_le) _
  · exact leaves_ok (Nat.le_refl _) _

/-- The digits of an exponent are taken one by one. -/
theorem length_readExponentDigits_le (soFar : Nat) (cs : List Char) :
    (readExponentDigits soFar cs).2.length ≤ cs.length := by
  induction cs generalizing soFar with
  | nil => exact Nat.le_refl _
  | cons c cs ih =>
    rw [readExponentDigits]
    split
    · dsimp only
      split
      · exact Nat.le_succ _
      · exact Nat.le_succ_of_le (ih _)
    · exact Nat.le_refl _

theorem length_splitSign_le (cs : List Char) : (Numeral.splitSign cs).2.length ≤ cs.length := by
  unfold Numeral.splitSign
  split
  · exact Nat.le_succ _
  · exact Nat.le_succ _
  · exact Nat.le_refl _

/-- An exponent takes its sign and its digits. -/
theorem readExponent_leaves (significant : Bool) (cs : List Char) :
    Leaves cs.length (readExponent significant cs) := by
  have hsign := length_splitSign_le cs
  have hdigits := length_readExponentDigits_le 0 (Numeral.splitSign cs).2
  simp only [readExponent]
  split
  · exact leaves_error _
  · split
    · split
      · exact leaves_error _
      · have hle := Nat.le_trans hdigits hsign
        exact leaves_ok (Nat.le_trans (List.dropWhile_suffix _).length_le hle) _
    · exact leaves_error _

theorem readExponent?_leaves (significant : Bool) (cs : List Char) :
    Leaves cs.length (readExponent? significant cs) := by
  cases cs with
  | nil => exact leaves_ok (Nat.le_refl _) _
  | cons c rest =>
    rw [readExponent?]
    split
    · exact ((readExponent_leaves significant rest).map _).mono (Nat.le_succ _)
    · exact leaves_ok (Nat.le_refl _) _

/-- A fraction is read first and then an exponent. -/
theorem readNumberTail_leaves (negative : Bool) (whole cs : List Char) :
    Leaves cs.length (readNumberTail negative whole cs) := by
  apply leaves_bind
  rintro ⟨fraction, behind⟩ hfraction
  have hbehind := readFraction_leaves cs fraction behind hfraction
  apply leaves_bind
  rintro ⟨exponent, rest⟩ hexponent
  have hrest := readExponent?_leaves _ behind exponent rest hexponent
  have hle : rest.length ≤ cs.length := Nat.le_trans hrest hbehind
  dsimp only
  split
  · exact leaves_ok hle _
  · split
    · exact leaves_ok hle _
    · exact leaves_error _

theorem readNumber_leaves (negative : Bool) (cs : List Char) :
    Leaves cs.length (readNumber negative cs) := by
  cases cs with
  | nil => exact leaves_error _
  | cons c rest =>
    rw [readNumber]
    split
    · split
      · exact leaves_error _
      · exact (readNumberTail_leaves _ _ rest).mono (Nat.le_succ _)
    · split
      · have hdigits := (List.dropWhile_suffix Char.isDigit (l := rest)).length_le
        exact (readNumberTail_leaves _ _ _).mono (Nat.le_succ_of_le hdigits)
      · exact leaves_error _

/-! ## Strings -/

/-- The quote that closes a string is not left. -/
theorem length_of_readStringFrom {read cs rest : List Char} {s : String}
    (h : readStringFrom read cs = .ok (s, rest)) : rest.length < cs.length := by
  fun_induction readStringFrom read cs with
  | case1 => cases h
  | case2 read behind =>
    cases h
    exact Nat.lt_succ_self _
  | case3 => cases h
  | case4 read behind d behindEscape hescape _ ih =>
    have hle := length_of_readEscape hescape
    have hlt := ih h
    rw [List.length_cons]
    omega
  | case5 => cases h
  | case6 read c behind _ _ _ ih => exact Nat.lt_succ_of_lt (ih h)

/-- A string leaves less than it was given. -/
theorem length_of_readString {cs rest : List Char} {s : String}
    (h : readString cs = .ok (s, rest)) : rest.length < cs.length :=
  length_of_readStringFrom h

/-! ## Containers -/

theorem length_of_readColon {cs rest : List Char} (h : readColon cs = .ok rest) :
    rest.length < cs.length := by
  have hskip := length_skipBlanks_le cs
  rw [readColon] at h
  split at h
  · cases h
  · rename_i hcolon
    cases h
    rw [hcolon] at hskip
    exact hskip
  · cases h

section

variable {readItem : List Char → Outcome Value}

/-- No round of the loop over elements leaves more. -/
theorem readItems_leaves (hitem : ∀ cs, Leaves cs.length (readItem cs)) (bound cs : List Char) :
    Leaves cs.length (readItems readItem bound cs) := by
  induction bound generalizing cs with
  | nil => exact leaves_error _
  | cons _ bound ih =>
    rw [readItems]
    -- a round takes an element, and a bracket or a comma behind it
    apply leaves_bind
    rintro ⟨v, behind⟩ hv
    have hbehind : behind.length ≤ cs.length := hitem cs v behind hv
    have hskip := length_skipBlanks_le behind
    dsimp only
    split
    · exact leaves_error _
    · rename_i rest hclose
      rw [hclose, List.length_cons] at hskip
      exact leaves_ok (by omega) _
    · rename_i next hcomma
      rw [hcomma, List.length_cons] at hskip
      have hnext := length_skipBlanks_le next
      split
      · exact leaves_error _
      · apply leaves_bind
        rintro ⟨more, rest⟩ hmore
        have hrest : rest.length ≤ _ := ih _ more rest hmore
        exact leaves_ok (by dsimp only; omega) _
    · exact leaves_error _

/-- No round of the loop over fields leaves more. -/
theorem readFields_leaves (hitem : ∀ cs, Leaves cs.length (readItem cs)) (bound cs : List Char) :
    Leaves cs.length (readFields readItem bound cs) := by
  induction bound generalizing cs with
  | nil => exact leaves_error _
  | cons _ bound ih =>
    rw [readFields]
    apply leaves_bind
    rintro ⟨key, behindKey⟩ hkey
    have hbehindKey := length_of_readString hkey
    apply leaves_bind
    rintro behindColon hcolon
    have hbehindColon := length_of_readColon hcolon
    apply leaves_bind
    rintro ⟨v, behind⟩ hv
    have hbehind : behind.length ≤ behindColon.length := hitem _ v behind hv
    have hskip := length_skipBlanks_le behind
    dsimp only
    split
    · exact leaves_error _
    · rename_i rest hclose
      rw [hclose, List.length_cons] at hskip
      exact leaves_ok (by omega) _
    · rename_i next hcomma
      rw [hcomma, List.length_cons] at hskip
      have hnext := length_skipBlanks_le next
      split
      · exact leaves_error _
      · rename_i inside hquote
        rw [hquote, List.length_cons] at hnext
        apply leaves_bind
        rintro ⟨more, rest⟩ hmore
        have hrest : rest.length ≤ _ := ih _ more rest hmore
        exact leaves_ok (by dsimp only; omega) _
      · exact leaves_error _
      · exact leaves_error _
    · exact leaves_error _

theorem readArray_leaves (hitem : ∀ cs, Leaves cs.length (readItem cs)) (cs : List Char) :
    Leaves cs.length (readArray readItem cs) := by
  have hskip := length_skipBlanks_le cs
  unfold readArray
  split
  · exact leaves_error _
  · rename_i rest hclose
    rw [hclose, List.length_cons] at hskip
    exact leaves_ok (Nat.le_of_succ_le hskip) _
  · exact ((readItems_leaves hitem _ _).map _).mono hskip

theorem readObject_leaves (hitem : ∀ cs, Leaves cs.length (readItem cs)) (cs : List Char) :
    Leaves cs.length (readObject readItem cs) := by
  have hskip := length_skipBlanks_le cs
  unfold readObject
  split
  · exact leaves_error _
  · rename_i rest hclose
    rw [hclose, List.length_cons] at hskip
    exact leaves_ok (Nat.le_of_succ_le hskip) _
  · rename_i rest hquote
    rw [hquote, List.length_cons] at hskip
    have hfields := readFields_leaves hitem ('"' :: rest) rest
    exact (hfields.map fun pairs => Value.obj (Fields.ofPairs pairs)).mono (Nat.le_of_succ_le hskip)
  · exact leaves_error _

end

/-! ## Values -/

/-- A value leaves no more than it was given if its parts do not. -/
theorem readValueWith_leaves {readItem? : Option (List Char → Outcome Value)}
    (hitem : ∀ readItem ∈ readItem?, ∀ cs, Leaves cs.length (readItem cs)) (cs : List Char) :
    Leaves cs.length (readValueWith readItem? cs) := by
  refine Leaves.mono ?_ (length_skipBlanks_le cs)
  unfold readValueWith
  split
  · exact leaves_error _
  -- the first character has been looked at, and most values have taken it
  all_goals rename_i rest hhead; rw [hhead, List.length_cons]
  · exact (readWord_leaves _ _ rest).mono (Nat.le_succ _)
  · exact (readWord_leaves _ _ rest).mono (Nat.le_succ _)
  · exact (readWord_leaves _ _ rest).mono (Nat.le_succ _)
  · refine Leaves.map (fun s behind hread => ?_) _
    have := length_of_readString hread
    omega
  · exact ((readNumber_leaves true rest).map _).mono (Nat.le_succ _)
  · split
    · exact (readArray_leaves (hitem _ rfl) rest).mono (Nat.le_succ _)
    · exact leaves_error _
  · split
    · exact (readObject_leaves (hitem _ rfl) rest).mono (Nat.le_succ _)
    · exact leaves_error _
  · split
    · exact (readNumber_leaves false _).map _
    · exact leaves_error _

/-- Reading a value leaves no more than it was given. -/
theorem readValue_leaves (n : Nat) (cs : List Char) : Leaves cs.length (readValue n cs) := by
  induction n generalizing cs with
  | zero => exact readValueWith_leaves (by simp) cs
  | succ n ih =>
    refine readValueWith_leaves ?_ cs
    rintro _ ⟨⟩
    exact ih

end PathQuery.Json
