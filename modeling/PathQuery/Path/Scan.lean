import PathQuery.Text

/-!
# Splitting a path text

`Scan` goes over the characters of a path text once and notes its pieces as spans of byte offsets.

* Dots and brackets cut, parentheses mute them, and of nested brackets only the outermost pair cuts
  (`delimit`). Neither count goes below zero, and the end of the text ends the last piece.
* Pieces that end at a dot wait in `pending` until a bracket or the end of the text.
* `rawPieces` looks the spans up in the text. `pathPieces` trims them and drops the empty ones.
-/

namespace PathQuery

/-- The part of a text between two byte offsets. -/
structure Span where
  start : Nat
  stop : Nat
deriving DecidableEq

/-- How far a scan has come. `pos` is the offset of the next character and `cut` that of the first
character behind the last cut; `mute` and `depth` count the open parentheses and brackets. -/
structure Scan where
  pos : Nat := 0
  cut : Nat := 0
  mute : Nat := 0
  depth : Nat := 0
  pending : List Span := []
  closed : List Span := []
deriving DecidableEq

namespace Scan

/-- The piece that a cut at the current position ends. -/
def piece (s : Scan) : Span := ⟨s.cut, s.pos⟩

/-- Cuts at a dot. -/
def cutAtDot (s : Scan) : Scan :=
  { s with pending := s.pending ++ [s.piece], cut := s.pos + 1 }

/-- Cuts at a bracket, which closes the run of pieces. -/
def cutAtBracket (s : Scan) : Scan :=
  { s with closed := s.closed ++ s.pending ++ [s.piece], pending := [], cut := s.pos + 1 }

/-- Only the outermost opening bracket cuts. -/
def openBracket (s : Scan) : Scan :=
  { (if s.depth = 0 then s.cutAtBracket else s) with depth := s.depth + 1 }

/-- Only the bracket that closes the outermost one cuts. A bracket that closes nothing is text. -/
def closeBracket (s : Scan) : Scan :=
  if s.depth = 0 then s
  else if s.depth = 1 then { s.cutAtBracket with depth := 0 }
  else { s with depth := s.depth - 1 }

/-- What a character does to the cuts and counts. -/
def delimit (s : Scan) (c : Char) : Scan :=
  if c = '(' then { s with mute := s.mute + 1 }
  else if c = ')' then { s with mute := s.mute - 1 }
  -- inside parentheses nothing else counts
  else if s.mute ≠ 0 then s
  else if c = '.' then s.cutAtDot
  else if c = '[' then s.openBracket
  else if c = ']' then s.closeBracket
  else s

/-- Goes past one character. -/
def step (s : Scan) (c : Char) : Scan :=
  { s.delimit c with pos := s.pos + c.utf8Size }

/-- The scan of a whole text. -/
def ofText (cs : List Char) : Scan := cs.foldl step {}

/-- The pieces of the text in order, with the one that the end of the text ends. -/
def spans (s : Scan) : List Span := s.closed ++ s.pending ++ [s.piece]

/-- No parenthesis and no bracket is open. -/
def IsClosed (s : Scan) : Prop := s.mute = 0 ∧ s.depth = 0

instance (s : Scan) : Decidable s.IsClosed := inferInstanceAs (Decidable (_ ∧ _))

/-! ## Running on -/

/-- A scan of two texts goes on with the second one where the first one ended. -/
theorem ofText_append (cs ds : List Char) : ofText (cs ++ ds) = ds.foldl step (ofText cs) := by
  rw [ofText, List.foldl_append]
  rfl

@[simp] theorem pos_step (s : Scan) (c : Char) : (s.step c).pos = s.pos + c.utf8Size := rfl

/-- The position counts the bytes that have been read. -/
theorem pos_foldl_step (cs : List Char) (s : Scan) :
    (cs.foldl step s).pos = s.pos + Text.byteCount cs := by
  induction cs generalizing s with
  | nil => simp
  | cons c cs ih => rw [List.foldl_cons, ih, pos_step, Text.byteCount_cons, Nat.add_assoc]

end Scan

/-- The texts of the spans of a path text, whole as they stand. -/
def rawPieces (cs : List Char) : List (List Char) :=
  (Scan.ofText cs).spans.filterMap fun span => Text.slice? cs span.start span.stop

/-- The pieces of a path text: trimmed, and none of them empty. -/
def pathPieces (cs : List Char) : List (List Char) :=
  ((rawPieces cs).map Text.trim).filter (!·.isEmpty)

/-- A piece holds only characters of the path text. -/
theorem mem_of_mem_pathPieces {cs piece : List Char} {c : Char}
    (hp : piece ∈ pathPieces cs) (hc : c ∈ piece) : c ∈ cs := by
  simp only [pathPieces, rawPieces, List.mem_filter, List.mem_map, List.mem_filterMap] at hp
  obtain ⟨⟨raw, ⟨span, -, hraw⟩, rfl⟩, -⟩ := hp
  exact Text.mem_of_slice? hraw (Text.mem_of_mem_trim hc)

end PathQuery
