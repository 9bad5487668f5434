import PathQuery.Json.Reader
import PathQuery.Json.Writer

/-!
# Strings read back

* `readString_write`: what is written for a string is read as that string. A character is written as
  itself, as a letter behind a backslash or as a numeric escape (`readStringFrom_escape`).
* `readString_append`: the closing quote ends a string, in any spelling, so it reads the same where
  the text goes on (`GoesOn`).
-/

namespace PathQuery.Json

variable {c : Char} {rest : List Char}

/-! ## Escapes -/

/-- The digits of a number below 32, with zeros in front, are read as that number. -/
theorem readUnicode_control {n : Nat} (h : n < 0x20) :
    readUnicode ('0' :: '0' :: Nat.digitChar (n / 16) :: Nat.digitChar (n % 16) :: rest) =
      .ok (Char.ofNat n, rest) := by
  have hdigit : ∀ m < 16, hexDigit? (Nat.digitChar m) = some m := by decide
  have hhigh := hdigit (n / 16) (by omega)
  have hlow := hdigit (n % 16) (by omega)
  have hzero : hexDigit? '0' = some 0 := by decide
  have hvalue : 16 * (n / 16) + n % 16 = n := Nat.div_add_mod n 16
  have hread : readHex
      ('0' :: '0' :: Nat.digitChar (n / 16) :: Nat.digitChar (n % 16) :: rest) = .ok (n, rest) := by
    simp [readHex, hzero, hhigh, hlow, hvalue]
  have htrailing : isTrailingSurrogate n = false := by
    simp [isTrailingSurrogate]
    omega
  have hleading : isLeadingSurrogate n = false := by
    simp [isLeadingSurrogate]
    omega
  rw [readUnicode, hread]
  simp [bind, Except.bind, htrailing, hleading, pure, Except.pure]

theorem readEscape_letter {letter : Char} (h : unescape? letter = some c) :
    readEscape (letter :: rest) = .ok (c, rest) := by
  rw [readEscape, h]

theorem readEscape_control (h : c.toNat < 0x20) :
    readEscape ('u' :: '0' :: '0' :: Nat.digitChar (c.toNat / 16) ::
      Nat.digitChar (c.toNat % 16) :: rest) = .ok (c, rest) := by
  have hnone : unescape? 'u' = none := by decide
  rw [readEscape, hnone]
  dsimp only
  rw [if_pos rfl, readUnicode_control h, Char.ofNat_toNat]

/-! ## Characters -/

/-- An escape is one character more. -/
theorem readStringFrom_backslash {read behind : List Char}
    (h : readEscape behind = .ok (c, rest)) :
    readStringFrom read ('\\' :: behind) = readStringFrom (c :: read) rest := by
  rw [readStringFrom, if_neg (by decide), if_pos rfl]
  split
  · rename_i hfault
    rw [h] at hfault
    cases hfault
  · rename_i hread
    rw [h] at hread
    cases hread
    rfl

/-- A character is read back from however it is written. -/
theorem readStringFrom_escape (read : List Char) (c : Char) (rest : List Char) :
    readStringFrom read (escape c ++ rest) = readStringFrom (c :: read) rest := by
  have hletter (letter : Char) (h : unescape? letter = some c) :
      readStringFrom read ('\\' :: letter :: rest) = readStringFrom (c :: read) rest :=
    readStringFrom_backslash (readEscape_letter h)
  unfold escape
  -- the order of the cases is the order in which the writer looks for an escape
  split
  · subst c
    exact hletter '"' (by decide)
  split
  · subst c
    exact hletter '\\' (by decide)
  split
  · subst c
    exact hletter 'b' (by decide)
  split
  · subst c
    exact hletter 'f' (by decide)
  split
  · subst c
    exact hletter 'n' (by decide)
  split
  · subst c
    exact hletter 'r' (by decide)
  split
  · subst c
    exact hletter 't' (by decide)
  split
  · exact readStringFrom_backslash (readEscape_control ‹_›)
  · rw [List.singleton_append, readStringFrom, if_neg ‹_›, if_neg ‹_›, if_neg ‹_›]

/-! ## Strings -/

/-- A string is read character by character. -/
theorem readStringFrom_write (cs read : List Char) :
    readStringFrom read (cs.flatMap escape ++ '"' :: rest) =
      .ok (String.ofList (read.reverse ++ cs), rest) := by
  induction cs generalizing read with
  | nil => simp [readStringFrom]
  | cons c cs ih =>
    rw [List.flatMap_cons, List.append_assoc, readStringFrom_escape, ih]
    simp

/-- What is written for a text, behind the opening quote, is read as that text. -/
theorem readString_write (s : String) (rest : List Char) :
    readString (s.toList.flatMap escape ++ '"' :: rest) = .ok (s, rest) := by
  rw [readString, readStringFrom_write]
  simp

/-! ## Texts that go on -/

section

variable {α β : Type} {more : List Char}

/-- Whatever the first outcome has read, the second has read as well, and more is left behind it. -/
def GoesOn (more : List Char) (outcome longer : Outcome α) : Prop :=
  ∀ a rest, outcome = .ok (a, rest) → longer = .ok (a, rest ++ more)

theorem goesOn_error (fault : JsonFault) (longer : Outcome α) : GoesOn more (.error fault) longer :=
  nofun

theorem goesOn_ok (a : α) (rest : List Char) :
    GoesOn more (.ok (a, rest)) (.ok (a, rest ++ more)) := by
  rintro _ _ ⟨⟩
  rfl

/-- Steps that go on can be put in sequence. -/
theorem goesOn_bind {step longer : Outcome β} {next : β × List Char → Outcome α}
    (hstep : GoesOn more step longer)
    (hnext : ∀ b rest, GoesOn more (next (b, rest)) (next (b, rest ++ more))) :
    GoesOn more (step.bind next) (longer.bind next) := by
  intro a rest h
  cases step with
  | error fault => cases h
  | ok read =>
    rw [hstep read.1 read.2 rfl]
    exact hnext read.1 read.2 a rest h

end

variable {more : List Char}

theorem readHex_goesOn (cs : List Char) : GoesOn more (readHex cs) (readHex (cs ++ more)) := by
  unfold readHex
  dsimp only
  split
  · rename_i hdigits
    -- four digits take four characters, and those are all that is looked at
    have hlength : 4 ≤ cs.length := by
      have hle := List.length_filterMap_le hexDigit? (cs.take 4)
      rw [hdigits, List.length_take] at hle
      omega
    rw [List.take_append_of_le_length hlength, List.drop_append_of_le_length hlength,
      if_pos hdigits]
    exact goesOn_ok _ _
  · split <;> exact goesOn_error _ _

/-- The character that is expected is the next one, and reading goes on behind it. -/
theorem expectInPair_goesOn (c : Char) (cs : List Char) {next : List Char → Outcome Char}
    (hnext : ∀ rest, GoesOn more (next rest) (next (rest ++ more))) :
    GoesOn more ((expectInPair c cs).bind next) ((expectInPair c (cs ++ more)).bind next) := by
  cases cs with
  | nil => exact goesOn_error _ _
  | cons d cs =>
    rw [List.cons_append, expectInPair, expectInPair]
    split
    · exact hnext cs
    · exact goesOn_error _ _

theorem readUnicode_goesOn (cs : List Char) :
    GoesOn more (readUnicode cs) (readUnicode (cs ++ more)) := by
  apply goesOn_bind (readHex_goesOn cs)
  intro n rest
  dsimp only
  split
  · exact goesOn_error _ _
  split
  · apply expectInPair_goesOn
    intro rest
    apply expectInPair_goesOn
    intro rest
    apply goesOn_bind (readHex_goesOn rest)
    intro m rest
    dsimp only
    split
    · exact goesOn_ok _ _
    · exact goesOn_error _ _
  · exact goesOn_ok _ _

/-- An escape ends with its last digit or letter. -/
theorem readEscape_goesOn (cs : List Char) :
    GoesOn more (readEscape cs) (readEscape (cs ++ more)) := by
  cases cs with
  | nil => exact goesOn_error _ _
  | cons c cs =>
    rw [List.cons_append, readEscape, readEscape]
    split
    · exact goesOn_ok _ _
    split
    · exact readUnicode_goesOn cs
    · exact goesOn_error _ _

/-- A string ends with its closing quote, whatever comes behind. -/
theorem readStringFrom_goesOn (read cs : List Char) :
    GoesOn more (readStringFrom read cs) (readStringFrom read (cs ++ more)) := by
  fun_induction readStringFrom read cs with
  | case1 read => exact goesOn_error _ _
  | case2 read rest =>
    rw [List.cons_append, readStringFrom, if_pos rfl]
    exact goesOn_ok _ _
  | case3 => exact goesOn_error _ _
  | case4 read rest d behind h hquote ih =>
    rw [List.cons_append, readStringFrom_backslash (readEscape_goesOn rest d behind h)]
    exact ih
  | case5 => exact goesOn_error _ _
  | case6 read c rest hquote hbackslash hcontrol ih =>
    rw [List.cons_append, readStringFrom, if_neg hquote, if_neg hbackslash, if_neg hcontrol]
    exact ih

/-- A string reads the same with more behind it. -/
theorem readString_append {cs : List Char} {s : String} (h : readString cs = .ok (s, rest))
    (more : List Char) : readString (cs ++ more) = .ok (s, rest ++ more) :=
  readStringFrom_goesOn [] cs s rest h

end PathQuery.Json
