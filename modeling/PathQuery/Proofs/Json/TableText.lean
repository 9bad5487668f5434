import PathQuery.Proofs.Json.Insertion
import PathQuery.Proofs.Json.ReadBack

/-!
# Tables of strings as texts

A `TableText` is a table of strings with all the choices of how it can be written as an object: the
spelling of each string, and the blanks between any two parts. `rows` are the keys with their
strings, with every repetition, and `text` writes them out.

* `TableText.ofJson_text`: the text is read as the object that comes from inserting the rows.
* `TableText.plain_text`: every list of rows can be so written, by the writer among others.
-/

namespace PathQuery

namespace Json

/-- Nothing but blanks. -/
abbrev Blanks := { cs : List Char // ∀ c ∈ cs, isBlank c = true }

/-- No blank at all. -/
def noBlanks : Blanks := ⟨[], nofun⟩

/-- A string in one of its spellings, from behind the opening quote, the closing one included. -/
structure StringText where
  string : String
  chars : List Char
  spells : readString chars = .ok (string, [])

/-- The spelling that the writer chooses. -/
def StringText.plain (s : String) : StringText :=
  ⟨s, s.toList.flatMap escape ++ ['"'], readString_write s []⟩

/-- A row of a table, with the blanks around its parts. -/
structure RowText where
  key : StringText
  value : StringText
  beforeKey : Blanks
  behindKey : Blanks
  beforeValue : Blanks
  behindValue : Blanks

namespace RowText

/-- The key and the string that the row spells. -/
def row (r : RowText) : String × String := (r.key.string, r.value.string)

/-- The row from behind the quote that opens its key. -/
def inside (r : RowText) : List Char :=
  r.key.chars ++ (r.behindKey ++ ':' ::
    (r.beforeValue ++ '"' :: (r.value.chars ++ r.behindValue)))

/-- The row with the blanks in front of its key and the opening quote. -/
def chars (r : RowText) : List Char := r.beforeKey ++ '"' :: r.inside

/-- The row without any blanks. -/
def plain (row : String × String) : RowText :=
  ⟨.plain row.1, .plain row.2, noBlanks, noBlanks, noBlanks, noBlanks⟩

end RowText

/-- A table written as an object. `beforeClose` stands in front of the closing brace. -/
structure TableText where
  before : Blanks
  lines : List RowText
  beforeClose : Blanks
  behind : Blanks

namespace TableText

/-- The keys with their strings, in the order in which they are written. -/
def rows (t : TableText) : List (String × String) := t.lines.map RowText.row

/-- The table as a text, with the braces and the blanks around it. -/
def text (t : TableText) : String :=
  String.ofList (t.before ++ '\x7b' :: ([','].intercalate (t.lines.map RowText.chars) ++
    (t.beforeClose ++ '\x7d' :: t.behind)))

/-- The table without any blanks. -/
def plain (rows : List (String × String)) : TableText :=
  ⟨noBlanks, rows.map RowText.plain, noBlanks, noBlanks⟩

end TableText

/-! ## Blanks -/

theorem skipBlanks_blanks (bs : Blanks) (cs : List Char) :
    skipBlanks (bs ++ cs) = skipBlanks cs :=
  List.dropWhile_append_of_pos bs.2

theorem skipBlanks_of_not_blank {c : Char} (h : isBlank c = false) (cs : List Char) :
    skipBlanks (c :: cs) = c :: cs := by
  rw [skipBlanks, List.dropWhile_cons, if_neg (by simp [h])]

/-- Blanks do not matter in front of a character that is none. -/
theorem skipBlanks_to (bs : Blanks) {c : Char} (h : isBlank c = false) (cs : List Char) :
    skipBlanks (bs ++ c :: cs) = c :: cs := by
  rw [skipBlanks_blanks, skipBlanks_of_not_blank h]

/-! ## Rows -/

variable {n : Nat} {rest : List Char}

theorem readValue_string (s : StringText) (bs : Blanks) (cs : List Char) :
    readValue n (bs ++ '"' :: (s.chars ++ cs)) = .ok (.str s.string, cs) := by
  have hskip : skipBlanks (bs ++ '"' :: (s.chars ++ cs)) = '"' :: (s.chars ++ cs) :=
    skipBlanks_to bs (by decide) _
  have hread : readString (s.chars ++ cs) = .ok (s.string, cs) := readString_append s.spells cs
  cases n <;>
  · simp only [readValue, readValueWith, hskip, hread]
    rfl

/-- Behind its opening quote a row is a field. -/
theorem readsField_inside (r : RowText) (cs : List Char) :
    ReadsField n (r.inside ++ cs) r.key.string (.str r.value.string) (r.behindValue ++ cs) := by
  obtain ⟨value, hvalue⟩ : ∃ value, value =
    r.beforeValue ++ '"' :: (r.value.chars ++ (r.behindValue ++ cs)) := ⟨_, rfl⟩
  have hinside : r.inside ++ cs = r.key.chars ++ (r.behindKey ++ ':' :: value) := by
    simp [RowText.inside, hvalue]
  refine ⟨r.behindKey ++ ':' :: value, value, ?_, ?_, ?_⟩
  · rw [hinside]
    exact readString_append r.key.spells _
  · rw [readColon, skipBlanks_to r.behindKey (by decide)]
    rfl
  · rw [hvalue]
    exact readValue_string r.value r.beforeValue _

/-- The rows behind the first one, each behind its comma. -/
def writeLines (lines : List RowText) : List Char := lines.flatMap fun line => ',' :: line.chars

/-- The rows are read as pairs, each with its string as a value. -/
theorem givesPairs_lines {lines : List RowText} {closing : List Char}
    (hclose : skipBlanks closing = '\x7d' :: rest) (r : RowText) :
    GivesPairs n (r.inside ++ (writeLines lines ++ closing))
      (Fields.mapValues .str ((r :: lines).map RowText.row)) rest := by
  induction lines generalizing r with
  | nil =>
    have hend : skipBlanks (r.behindValue ++ closing) = '\x7d' :: rest := by
      rw [skipBlanks_blanks, hclose]
    exact .last (readsField_inside r closing) hend
  | cons line lines ih =>
    obtain ⟨behind, hbehind⟩ : ∃ behind, behind = line.inside ++ (writeLines lines ++ closing) :=
      ⟨_, rfl⟩
    have htext : writeLines (line :: lines) ++ closing =
        ',' :: (line.beforeKey ++ '"' :: behind) := by
      simp [writeLines, RowText.chars, hbehind]
    have hfield := readsField_inside (n := n) r (',' :: (line.beforeKey ++ '"' :: behind))
    have hcomma := skipBlanks_to r.behindValue (c := ',') (by decide)
      (line.beforeKey ++ '"' :: behind)
    have hquote := skipBlanks_to line.beforeKey (c := '"') (by decide) behind
    rw [htext]
    exact .more hfield hcomma hquote (hbehind ▸ ih line)

/-! ## Tables -/

namespace TableText

theorem intercalate_chars (r : RowText) (lines : List RowText) :
    [','].intercalate ((r :: lines).map RowText.chars) = r.chars ++ writeLines lines := by
  induction lines generalizing r with
  | nil => simp [writeLines]
  | cons line lines ih =>
    rw [List.map_cons, List.map_cons, List.intercalate_cons_cons, ← List.map_cons, ih]
    simp [writeLines]

/-- Behind its opening brace the table is an object. -/
theorem readObject_lines (lines : List RowText) {closing : List Char}
    (hclose : skipBlanks closing = '\x7d' :: rest) :
    readObject (readValue n) ([','].intercalate (lines.map RowText.chars) ++ closing) =
      .ok (.obj (Fields.ofPairs (Fields.mapValues .str (lines.map RowText.row))), rest) := by
  refine readObject_eq_ok_iff.mpr ⟨_, ?_, rfl⟩
  cases lines with
  | nil =>
    rw [List.map_nil, List.intercalate_nil, List.nil_append]
    exact .inl ⟨rfl, hclose⟩
  | cons r lines =>
    have htext : [','].intercalate ((r :: lines).map RowText.chars) ++ closing =
        r.beforeKey ++ '"' :: (r.inside ++ (writeLines lines ++ closing)) := by
      rw [intercalate_chars, RowText.chars]
      simp
    rw [htext]
    exact .inr ⟨_, skipBlanks_to r.beforeKey (by decide) _, givesPairs_lines hclose r⟩

/-- A table is read as the object that its rows give when they are inserted one after the other. -/
theorem ofJson_text (t : TableText) :
    Value.ofJson t.text = .ok (.obj (Fields.ofPairs (Fields.mapValues .str t.rows))) := by
  rw [Value.ofJson_eq_ok_iff]
  obtain ⟨closing, hclosing⟩ : ∃ closing, closing = t.beforeClose ++ '\x7d' :: t.behind :=
    ⟨_, rfl⟩
  have hclose : skipBlanks closing = '\x7d' :: t.behind := by
    rw [hclosing, skipBlanks_to t.beforeClose (by decide)]
  have hopen := skipBlanks_to t.before (c := '\x7b') (by decide)
    ([','].intercalate (t.lines.map RowText.chars) ++ closing)
  have hobject := readObject_lines (n := 126) t.lines hclose
  have hbehind : skipBlanks t.behind = [] := by
    rw [← List.append_nil t.behind.1, skipBlanks_blanks]
    rfl
  refine ⟨t.behind, ?_, hbehind⟩
  rw [text, String.toList_ofList, ← hclosing, readDocument, maxDepth, readValue, readValueWith,
    hopen]
  exact hobject

/-! ## What the writer writes -/

theorem chars_plain (row : String × String) :
    (RowText.plain row).chars = quote row.1 ++ ':' :: quote row.2 := by
  simp [RowText.chars, RowText.inside, RowText.plain, StringText.plain, noBlanks, quote]

/-- The writer puts the rows without blanks. -/
theorem writeFields_str (rows : List (String × String)) :
    Value.writeFields .compact 1 (Fields.mapValues .str rows) =
      writeLines (rows.map RowText.plain) := by
  induction rows with
  | nil => rfl
  | cons row rows ih =>
    have hrow : Value.writeFields .compact 1 (Fields.mapValues .str (row :: rows)) =
        ',' :: (quote row.1 ++ ':' :: (quote row.2 ++
          Value.writeFields .compact 1 (Fields.mapValues .str rows))) := rfl
    rw [hrow, ih]
    simp [writeLines, chars_plain]

/-- Every list of rows can be written as a table. The writer's text of it is one way to do so. -/
theorem plain_text (rows : List (String × String)) :
    (plain rows).rows = rows ∧
      (plain rows).text = (Value.obj (Fields.mapValues .str rows)).toJson .compact := by
  constructor
  · simp [TableText.rows, plain, Function.comp_def, RowText.row, RowText.plain, StringText.plain]
  · rw [text, Value.toJson, plain]
    cases rows with
    | nil => rfl
    | cons row rows =>
      have hwrite : (Value.obj (Fields.mapValues .str (row :: rows))).write .compact 0 =
          '\x7b' :: (quote row.1 ++ ':' :: (quote row.2 ++
            (Value.writeFields .compact 1 (Fields.mapValues .str rows) ++ ['\x7d']))) := rfl
      rw [hwrite, writeFields_str, List.map_cons, intercalate_chars, chars_plain]
      simp [noBlanks]

end TableText

end Json

end PathQuery
