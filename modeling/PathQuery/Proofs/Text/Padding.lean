import PathQuery.Path.Segment

/-!
# Blanks and quotes around a text

`Padding` is blanks to both sides of a text, and `quoted` puts it in quotes.

* `trim_around`: trimming undoes padding. `mem_trim`: it keeps every character that is not blank.
* `cleanArg_around`: `Segment.cleanArg` undoes padding, quotes and padding inside the quotes.
* `splitWhen_append`: texts joined by a character at which `splitWhen` cuts come apart again.
-/

namespace PathQuery.Text

/-! ## Padding -/

/-- Nothing but blanks. -/
abbrev Blanks := { cs : List Char // ∀ c ∈ cs, isBlank c = true }

/-- Blanks to both sides of a text. -/
structure Padding where
  before : Blanks
  after : Blanks

/-- The text with the blanks around it. -/
def Padding.around (p : Padding) (cs : List Char) : List Char := p.before ++ (cs ++ p.after)

theorem trim_append_left (bs : Blanks) (cs : List Char) : trim (bs ++ cs) = trim cs := by
  rw [trim, List.dropWhile_append_of_pos bs.2, ← trim]

theorem dropWhile_blanks (bs : Blanks) : bs.1.dropWhile isBlank = [] := by
  rw [← List.append_nil bs.1, List.dropWhile_append_of_pos bs.2]
  rfl

theorem trim_blanks (bs : Blanks) : trim bs = [] := by
  rw [trim, dropWhile_blanks]
  rfl

theorem trim_append_right (cs : List Char) (bs : Blanks) : trim (cs ++ bs) = trim cs := by
  rw [trim, trim, List.dropWhile_append]
  split
  · rename_i hblank
    rw [dropWhile_blanks, List.isEmpty_iff.mp hblank]
  · rw [List.reverse_append, List.dropWhile_append_of_pos]
    intro c hc
    exact bs.2 c (List.mem_reverse.mp hc)

theorem trim_around (p : Padding) (cs : List Char) : trim (p.around cs) = trim cs := by
  rw [Padding.around, trim_append_left, trim_append_right]

theorem trim_trim (cs : List Char) : trim (trim cs) = trim cs := trim_eq_self (trimmed_trim cs)

theorem mem_dropWhile_isBlank {c : Char} {cs : List Char} (h : c ∈ cs) (hc : isBlank c = false) :
    c ∈ cs.dropWhile isBlank := by
  rw [← List.takeWhile_append_dropWhile (p := isBlank) (l := cs)] at h
  rcases List.mem_append.mp h with hfront | hrest
  · have hblank := List.all_eq_true.mp (List.all_takeWhile (p := isBlank) (l := cs)) c hfront
    rw [hc] at hblank
    cases hblank
  · exact hrest

/-- Trimming keeps whatever is not blank. -/
theorem mem_trim {c : Char} {cs : List Char} (h : c ∈ cs) (hc : isBlank c = false) :
    c ∈ trim cs := by
  have hfront : c ∈ cs.dropWhile isBlank := mem_dropWhile_isBlank h hc
  exact List.mem_reverse.mpr (mem_dropWhile_isBlank (List.mem_reverse.mpr hfront) hc)

/-- Something is left of a text that holds a character other than a blank. -/
theorem trim_isEmpty_of_mem {c : Char} {cs : List Char} (h : c ∈ cs) (hc : isBlank c = false) :
    (trim cs).isEmpty = false := by
  cases htrim : trim cs with
  | nil => exact absurd (htrim ▸ mem_trim h hc) List.not_mem_nil
  | cons => rfl

/-- A text that begins with something else than a blank is trimmed behind it only. -/
theorem trim_cons {c : Char} (hc : isBlank c = false) (cs : List Char) :
    trim (c :: cs) = c :: (cs.reverse.dropWhile isBlank).reverse := by
  rw [trim, List.dropWhile_cons_of_neg (by simp [hc]), List.reverse_cons, List.dropWhile_append]
  split
  · rename_i hempty
    rw [List.isEmpty_iff.mp hempty, List.dropWhile_cons_of_neg (by simp [hc])]
    rfl
  · rw [List.reverse_append]
    rfl

/-- A text that holds no blank at all is trimmed. -/
theorem trim_of_forall {cs : List Char} (h : ∀ c ∈ cs, isBlank c = false) : trim cs = cs := by
  apply trim_eq_self
  constructor
  · intro c hc
    exact h c (List.mem_of_mem_head? hc)
  · intro c hc
    exact h c (List.mem_of_mem_getLast? hc)

/-! ## Quotes -/

/-- The text between a pair of quotes. -/
def quoted (cs : List Char) : List Char := '\'' :: (cs ++ ['\''])

theorem quoted_injective {cs ds : List Char} (h : quoted cs = quoted ds) : cs = ds :=
  List.append_cancel_right (List.tail_eq_of_cons_eq h)

@[simp] theorem getLast?_quoted (cs : List Char) : (quoted cs).getLast? = some '\'' := by
  rw [quoted, ← List.cons_append, List.getLast?_concat]

@[simp] theorem trim_quoted (cs : List Char) : trim (quoted cs) = quoted cs := by
  apply trim_eq_self
  constructor
  · intro c hc
    cases hc
    rfl
  · intro c hc
    rw [getLast?_quoted] at hc
    cases hc
    rfl

/-- `unquote` undoes `quoted`. -/
@[simp] theorem unquote_quoted (cs : List Char) : unquote (quoted cs) = cs := by
  simp [unquote, quoted]

/-- A text that does not stand in a pair of quotes is left alone. -/
theorem unquote_of_not_quoted {cs : List Char} (h : ∀ ds, cs ≠ quoted ds) : unquote cs = cs := by
  unfold unquote
  split
  · rename_i rest
    rw [if_neg]
    intro hlast
    obtain ⟨ds, hds⟩ := List.getLast?_eq_some_iff.mp hlast
    exact h ds (by rw [hds, quoted])
  · rfl

/-- Cleaning an argument undoes padding, quotes and padding. -/
theorem cleanArg_around (outside inside : Padding) (cs : List Char) :
    Segment.cleanArg (outside.around (quoted (inside.around cs))) = trim cs := by
  rw [Segment.cleanArg, trim_around, trim_quoted, unquote_quoted, trim_around]

/-! ## Joining and splitting -/

/-- A character with a property is none of the characters without it. -/
theorem not_mem_of_all {p : Char → Bool} {marks : List Char} {c : Char}
    (hmarks : marks.all (!p ·) = true) (hc : p c = true) : c ∉ marks := by
  intro hmem
  have hnot := List.all_eq_true.mp hmarks c hmem
  rw [hc] at hnot
  cases hnot

/-- What holds of the separator and of the texts holds of the texts joined by it. -/
theorem forall_mem_intercalate {P : Char → Prop} {sep : List Char} {texts : List (List Char)}
    (hsep : ∀ c ∈ sep, P c) (h : ∀ text ∈ texts, ∀ c ∈ text, P c) :
    ∀ c ∈ sep.intercalate texts, P c := by
  induction texts with
  | nil => simp
  | cons text rest ih =>
    rw [List.forall_mem_cons] at h
    cases rest with
    | nil =>
      rw [List.intercalate_singleton]
      exact h.1
    | cons text' rest' =>
      intro c hc
      rw [List.intercalate_cons_cons, List.mem_append, List.mem_append] at hc
      rcases hc with (hc | hc) | hc
      · exact h.1 c hc
      · exact hsep c hc
      · exact ih h.2 c hc

/-- A text without a cut is the first piece in front of a character that cuts. -/
theorem splitWhen_append {isCut : Char → Bool} {cs : List Char} (h : ∀ c ∈ cs, isCut c = false)
    {d : Char} (hd : isCut d = true) (ds : List Char) :
    splitWhen isCut (cs ++ d :: ds) = cs :: splitWhen isCut ds := by
  induction cs with
  | nil => rw [List.nil_append, splitWhen, if_pos hd]
  | cons c cs ih =>
    rw [List.forall_mem_cons] at h
    rw [List.cons_append, splitWhen, h.1, ih h.2]
    rfl

end PathQuery.Text
