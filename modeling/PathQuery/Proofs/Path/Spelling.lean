import PathQuery.Proofs.Path.Classification

/-!
# Writing a path down

`Spelling` is a path with every choice that writing it down leaves open: whether a segment stands
behind a dot or in brackets, and which blanks stand around segments, around arguments and inside
quotes. `text` writes it out, and `Path.ofText_text` says that the text is read as its `path`.

* `Spelling.Item` is an index, a key in quotes without structural characters, or a call.
* `Spelling.Argument` stands in quotes and parentheses. It may hold anything but the marks at which
  a call is split.
* `split_steps`: behind a dot a segment is a piece, and behind brackets it is one with another piece
  of blanks.
-/

namespace PathQuery

open Text (Blanks Padding quoted)

namespace Spelling

/-- An argument of a call in its quotes, with the blanks around them and inside. -/
structure Argument where
  text : String
  ne_empty : text ≠ ""
  trimmed : Text.trim text.toList = text.toList
  clear : Segment.Clear text
  outside : Padding
  inside : Padding

/-- The argument as it is written. -/
def Argument.chars (arg : Argument) : List Char :=
  arg.outside.around (quoted (arg.inside.around arg.text.toList))

/-- A segment that can be written down, with the blanks inside its quotes. -/
inductive Item where
  | index (n : Nat) (small : n < 2 ^ 53)
  | key (name : String) (trimmed : Text.trim name.toList = name.toList)
      (plain : ∀ c ∈ name.toList, Counts.isStructural c = false) (inside : Padding)
  | call (op : Operator) (args : List Argument)

namespace Item

/-- The segment that is meant. -/
def segment : Item → Segment
  | index n small => .index (.natural n small)
  | key name _ _ _ => .key name
  | call op args => .call op (args.map Argument.text)

/-- The segment as it is written. -/
def chars : Item → List Char
  | index n _ => Nat.toDigits 10 n
  | key name _ _ inside => quoted (inside.around name.toList)
  | call op args => Segment.callText op (args.map Argument.chars)

end Item

/-- A segment with the blanks around it. -/
structure Piece where
  item : Item
  padding : Padding

/-- The segment as it is written, with its blanks. -/
def Piece.chars (piece : Piece) : List Char := piece.padding.around piece.item.chars

/-- What marks a segment off from the ones before it. -/
inductive Joint where
  /-- A dot in front. -/
  | dot
  /-- Brackets around, and possibly blanks behind them. -/
  | brackets (behind : Blanks)

/-- A segment with its mark. -/
structure Step where
  piece : Piece
  joint : Joint

/-- The segment as it is written, with its mark. -/
def Step.chars (step : Step) : List Char :=
  match step.joint with
  | .dot => '.' :: step.piece.chars
  | .brackets behind => '[' :: (step.piece.chars ++ ']' :: behind)

end Spelling

/-- A path with all the choices of writing it down. Only a first segment can do without a mark. -/
structure Spelling where
  lead : Blanks
  bare? : Option Spelling.Piece
  steps : List Spelling.Step

namespace Spelling

/-- The characters of the whole text. -/
def chars (s : Spelling) : List Char :=
  s.lead ++ (s.bare?.elim [] Piece.chars ++ s.steps.flatMap Step.chars)

/-- The path as it is written down. -/
def text (s : Spelling) : String := String.ofList s.chars

/-- The path that is meant. -/
def path (s : Spelling) : Path :=
  (s.bare?.toList ++ s.steps.map Step.piece).map fun piece => piece.item.segment

/-! ## Padded and quoted texts -/

theorem isCallMark_of_isBlank {c : Char} (h : Text.isBlank c = true) :
    Segment.isCallMark c = false := by
  have hmarks : ['(', ')', ','].all (!Text.isBlank ·) = true := by decide
  simpa [Segment.isCallMark, and_assoc] using Text.not_mem_of_all hmarks h

/-- A property of all blanks and of all characters of the text holds throughout the padded text. -/
theorem forall_mem_around {P : Char → Prop} {p : Padding} {cs : List Char}
    (hblank : ∀ c, Text.isBlank c = true → P c) (h : ∀ c ∈ cs, P c) : ∀ c ∈ p.around cs, P c := by
  intro c hc
  simp only [Padding.around, List.mem_append] at hc
  rcases hc with hc | hc | hc
  · exact hblank c (p.before.2 c hc)
  · exact h c hc
  · exact hblank c (p.after.2 c hc)

/-- A property of the quote and of all characters of the text holds throughout the quoted text. -/
theorem forall_mem_quoted {P : Char → Prop} {cs : List Char} (hquote : P '\'') (h : ∀ c ∈ cs, P c) :
    ∀ c ∈ quoted cs, P c := by
  intro c hc
  simp only [quoted, List.mem_cons, List.mem_append, List.not_mem_nil, or_false] at hc
  rcases hc with rfl | hc | rfl
  · exact hquote
  · exact h c hc
  · exact hquote

/-! ## Arguments -/

namespace Argument

/-- Cleaning an argument gives what is meant. -/
theorem cleanArg_chars (arg : Argument) : Segment.cleanArg arg.chars = arg.text.toList := by
  rw [chars, Text.cleanArg_around, arg.trimmed]

/-- An argument does not split the call that it stands in. -/
theorem isCallMark_chars (arg : Argument) : ∀ c ∈ arg.chars, Segment.isCallMark c = false :=
  forall_mem_around (fun _ => isCallMark_of_isBlank) <| forall_mem_quoted (by decide) <|
    forall_mem_around (fun _ => isCallMark_of_isBlank) arg.clear

theorem toList_ne_nil (arg : Argument) : (!arg.text.toList.isEmpty) = true := by
  simpa [List.isEmpty_iff] using arg.ne_empty

end Argument

/-! ## Segments -/

namespace Item

/-- No argument splits the call. -/
theorem isCallMark_of_mem_chars (args : List Argument) :
    ∀ text ∈ args.map Argument.chars, ∀ c ∈ text, Segment.isCallMark c = false := by
  intro text htext
  obtain ⟨arg, -, rfl⟩ := List.mem_map.mp htext
  exact arg.isCallMark_chars

/-- No cut falls into a segment, wherever it stands. -/
theorem calm_chars (item : Item) (k : Counts) : k.Calm item.chars := by
  cases item with
  | index n small =>
    exact Counts.calm_of_plain
      (fun c hc => Counts.isStructural_of_isDigit (isDigit_of_mem_toDigits c hc)) k
  | key name trimmed plain inside =>
    exact Counts.calm_of_plain (forall_mem_quoted (by decide)
      (forall_mem_around (fun _ => Counts.isStructural_of_isBlank) plain)) k
  | call op args =>
    exact Segment.calm_callText op (isCallMark_of_mem_chars args) k

theorem isEmpty_trim_chars (item : Item) : (Text.trim item.chars).isEmpty = false := by
  cases item with
  | index n small =>
    obtain ⟨d, rest, hdigits⟩ := List.exists_cons_of_ne_nil (@Nat.toDigits_ne_nil n 10)
    have hmem : d ∈ Nat.toDigits 10 n := hdigits ▸ List.mem_cons_self
    exact Text.trim_isEmpty_of_mem hmem
      (Segment.isBlank_of_isDigit (isDigit_of_mem_toDigits d hmem))
  | key name trimmed plain inside =>
    exact Text.trim_isEmpty_of_mem (c := '\'') List.mem_cons_self (by decide)
  | call op args =>
    have hmem : '(' ∈ (call op args).chars := by simp [chars, Segment.callText]
    exact Text.trim_isEmpty_of_mem hmem (by decide)

/-- A segment is taken for what is meant. -/
theorem ofText_chars (item : Item) : Segment.ofText item.chars = item.segment := by
  cases item with
  | index n small => exact Segment.ofText_toDigits n small
  | key name trimmed plain inside =>
    rw [chars, Segment.ofText_quoted, Text.trim_around, trimmed, String.ofList_toList, segment]
  | call op args =>
    have hclean : (args.map Argument.chars).map Segment.cleanArg =
        args.map fun arg => arg.text.toList := by
      rw [List.map_map]
      exact List.map_congr_left fun arg _ => arg.cleanArg_chars
    have hkept : (args.map fun arg => arg.text.toList).filter (!·.isEmpty) =
        args.map fun arg => arg.text.toList := by
      rw [List.filter_eq_self]
      intro text htext
      obtain ⟨arg, -, rfl⟩ := List.mem_map.mp htext
      exact arg.toList_ne_nil
    rw [chars, Segment.ofText_callText op (isCallMark_of_mem_chars args), hclean, hkept,
      List.map_map, segment]
    simp [Function.comp_def]

end Item

namespace Piece

/-- No cut falls into a segment with its blanks. -/
theorem calm_chars (piece : Piece) (k : Counts) : k.Calm piece.chars := by
  have hbefore := Counts.calm_blanks piece.padding.before k
  have hafter := Counts.calm_blanks piece.padding.after k
  exact hbefore.append ((piece.item.calm_chars k).append hafter)

/-- Trimming takes the blanks around a segment away. -/
theorem trim_chars (piece : Piece) : Text.trim piece.chars = Text.trim piece.item.chars :=
  Text.trim_around piece.padding piece.item.chars

end Piece

/-! ## Paths -/

/-- The pieces that a segment adds. Behind brackets a piece begins that may hold blanks. -/
def Step.pieces (step : Step) : List (List Char) :=
  match step.joint with
  | .dot => [step.piece.chars]
  | .brackets behind => [step.piece.chars, behind]

/-- Whatever comes before the first mark is a piece of its own; here it is nothing. -/
theorem split_steps (steps : List Step) :
    ({} : Counts).split (steps.flatMap Step.chars) = [] :: steps.flatMap Step.pieces := by
  induction steps with
  | nil => rfl
  | cons step rest ih =>
    obtain ⟨piece, joint⟩ := step
    have hpiece := piece.calm_chars
    cases joint with
    | dot =>
      have hsplit : ({} : Counts).split (piece.chars ++ rest.flatMap Step.chars) =
          piece.chars :: rest.flatMap Step.pieces := by
        rw [(hpiece {}).split_append, ih, List.modifyHead_cons, List.append_nil]
      exact congrArg ([] :: ·) hsplit
    | brackets behind =>
      -- the scan leaves the brackets as it entered them, with an empty piece to fill
      have hbehind := Counts.calm_blanks behind {}
      have hrest : ({} : Counts).split (behind.1 ++ rest.flatMap Step.chars) =
          behind.1 :: rest.flatMap Step.pieces := by
        rw [hbehind.split_append, ih, List.modifyHead_cons, List.append_nil]
      have hsplit : (Counts.mk 0 1).split
          (piece.chars ++ ']' :: (behind.1 ++ rest.flatMap Step.chars)) =
            piece.chars :: behind.1 :: rest.flatMap Step.pieces := by
        have hclose : (Counts.mk 0 1).split (']' :: (behind.1 ++ rest.flatMap Step.chars)) =
            [] :: ({} : Counts).split (behind.1 ++ rest.flatMap Step.chars) := rfl
        rw [(hpiece _).split_append, hclose, hrest, List.modifyHead_cons, List.append_nil]
      have htext : ({ piece, joint := .brackets behind } :: rest : List Step).flatMap Step.chars =
          '[' :: (piece.chars ++ ']' :: (behind.1 ++ rest.flatMap Step.chars)) := by
        simp [Step.chars]
      rw [htext]
      exact congrArg ([] :: ·) hsplit

/-- What is left of the pieces is one text for each segment. -/
theorem solid_pieces (steps : List Step) :
    Text.solid (steps.flatMap Step.pieces) =
      steps.map fun step => Text.trim step.piece.item.chars := by
  induction steps with
  | nil => rfl
  | cons step rest ih =>
    obtain ⟨piece, joint⟩ := step
    have hpiece : (Text.trim piece.item.chars).isEmpty = false := piece.item.isEmpty_trim_chars
    rw [List.flatMap_cons, Text.solid_append, ih, List.map_cons]
    cases joint with
    | dot => simp [Step.pieces, Text.solid_cons, piece.trim_chars, hpiece]
    | brackets behind =>
      simp [Step.pieces, Text.solid_cons, piece.trim_chars, hpiece, Text.trim_blanks]

/-- The pieces of the text are its segments, without the blanks around them. -/
theorem pathPieces_chars (s : Spelling) :
    pathPieces s.chars =
      (s.bare?.toList ++ s.steps.map Step.piece).map fun piece => Text.trim piece.item.chars := by
  have hlead := Counts.calm_blanks s.lead {}
  rw [pathPieces_eq_solid, chars, hlead.split_append]
  cases hbare : s.bare? with
  | none =>
    -- the piece in front of the first mark holds the leading blanks only
    rw [Option.elim_none, List.nil_append, split_steps, List.modifyHead_cons, Text.solid_cons,
      List.append_nil, Text.trim_blanks, solid_pieces]
    simp
  | some piece =>
    have hpiece : (Text.trim piece.item.chars).isEmpty = false := piece.item.isEmpty_trim_chars
    rw [Option.elim_some, (piece.calm_chars {}).split_append, split_steps, List.modifyHead_cons,
      List.modifyHead_cons, List.append_nil, Text.solid_cons, Text.trim_append_left,
      piece.trim_chars, hpiece, solid_pieces]
    simp

end Spelling

/-- However a path is written down, it is read as it was meant. -/
theorem Path.ofText_text (s : Spelling) : Path.ofText s.text = s.path := by
  rw [Path.ofText, Spelling.text, String.toList_ofList, Spelling.pathPieces_chars, List.map_map,
    Spelling.path]
  apply List.map_congr_left
  intro piece _
  rw [Function.comp_apply, Segment.ofText_trim, Spelling.Item.ofText_chars]

/-- A key in quotes that is the name of an operator, an index and a key in brackets, and a call
whose arguments hold dots and brackets. Blanks stand wherever they may. -/
theorem Path.ofText_text_mixed :
    let space : Blanks := ⟨[' '], List.forall_mem_singleton.mpr rfl⟩
    let tab : Blanks := ⟨['\t'], List.forall_mem_singleton.mpr rfl⟩
    let spaces : Padding := ⟨space, space⟩
    let nothing : Padding := ⟨⟨[], nofun⟩, ⟨[], nofun⟩⟩
    let find := Spelling.Item.key "find" (by decide) (by simp [Counts.isStructural]) spaces
    let seven := Spelling.Item.index 7 (by decide)
    let key := Spelling.Item.key "a b" (by decide) (by simp [Counts.isStructural]) nothing
    let path : Spelling.Argument := ⟨"a.b[0]", by decide, by decide, by decide, spaces, spaces⟩
    let bracket : Spelling.Argument := ⟨"[", by decide, by decide, by decide, nothing, nothing⟩
    let call := Spelling.Item.call .filter [path, bracket]
    let s : Spelling :=
      { lead := tab
        bare? := some ⟨find, ⟨space, tab⟩⟩
        steps := [⟨⟨seven, spaces⟩, .brackets space⟩, ⟨⟨key, nothing⟩, .brackets nothing.before⟩,
          ⟨⟨call, ⟨space, tab⟩⟩, .dot⟩] }
    s.text = "\t ' find '\t[ 7 ] ['a b']. filter( ' a.b[0] ' ,'[')\t" ∧
      Path.ofText s.text =
        [.key "find", .index (.natural 7 (by decide)), .key "a b",
          .call .filter ["a.b[0]", "["]] := by
  intro space tab spaces nothing find seven key path bracket call s
  have htext : s.text = "\t ' find '\t[ 7 ] ['a b']. filter( ' a.b[0] ' ,'[')\t" := by
    decide +kernel
  exact ⟨htext, Path.ofText_text s⟩

end PathQuery
