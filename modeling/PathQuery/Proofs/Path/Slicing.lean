import Mathlib.Data.List.Induction
import PathQuery.Proofs.Path.Splitting
import PathQuery.Proofs.Text.Boundaries

/-!
# Slices that are always there

`Slicer` is the scan with its texts, and with a `fault` wherever it could go wrong: a slice between
offsets that do not fit the text, or a bracket to be closed when none is open. It takes a slice at
every delimiter that is not muted, and ends at a dot behind the last character (`visits`).

* `Slicer.Follows.turn`: turn by turn a slicer stands where `Scan` stands. The text is cut at
  characters of one byte, so the offset behind a cut is a boundary (`Scan.exists_cut`).
* `Slicer.Follows.flush`: at the end it gives `rawPieces`.
* `Slicer.follows_of_reaches`: these are all states that it comes to (`Slicer.Reaches`).
* `slicer_never_faults` puts the three together.
-/

namespace PathQuery

/-- A scan that holds the texts of its pieces. -/
structure Slicer where
  cut : Nat := 0
  mute : Nat := 0
  depth : Nat := 0
  pending : List (List Char) := []
  closed : List (List Char) := []
deriving DecidableEq

namespace Slicer

/-- What a turn comes to. -/
inductive Turn where
  /-- There is no such slice, or no such count. -/
  | fault
  | next (s : Slicer)
  /-- The text is over, and these are its pieces. -/
  | flush (pieces : List (List Char))
deriving DecidableEq

/-- Cuts at a dot. The piece waits with the others of its run. -/
def cutAtDot (s : Slicer) (pos : Nat) (piece : List Char) : Slicer :=
  { s with pending := s.pending ++ [piece], cut := pos + 1 }

/-- Cuts at a bracket, which closes the run of pieces. -/
def cutAtBracket (s : Slicer) (pos : Nat) (piece : List Char) : Slicer :=
  { s with closed := s.closed ++ s.pending ++ [piece], pending := [], cut := pos + 1 }

/-- Only the outermost opening bracket cuts. -/
def openBracket (s : Slicer) (pos : Nat) (piece : List Char) : Slicer :=
  { (if s.depth = 0 then s.cutAtBracket pos piece else s) with depth := s.depth + 1 }

/-- Takes one from the open brackets. There has to be one. -/
def lower (s : Slicer) : Turn :=
  match s.depth with
  | 0 => .fault
  | depth + 1 => .next { s with depth }

/-- Only the bracket that closes the outermost one cuts. A bracket that closes nothing is text. -/
def closeBracket (s : Slicer) (pos : Nat) (piece : List Char) : Turn :=
  if s.depth = 0 then .next s
  else if s.depth = 1 then .next { s.cutAtBracket pos piece with depth := 0 }
  else s.lower

/-- The turn at a character and its offset. -/
def turn (text : List Char) (s : Slicer) (pos : Nat) (c : Char) : Turn :=
  if c = '(' then .next { s with mute := s.mute + 1 }
  else if c = ')' then .next { s with mute := s.mute - 1 }
  else if ¬(c = '.' ∨ c = '[' ∨ c = ']') then .next s
  -- the end of the text is the end of a piece, even of a muted one
  else if pos = Text.byteCount text then
    match Text.dropBytes? s.cut text with
    | none => .fault
    | some piece => .flush (s.closed ++ s.pending ++ [piece])
  else if s.mute ≠ 0 then .next s
  else
    match Text.slice? text s.cut pos with
    | none => .fault
    | some piece =>
      if c = '.' then .next (s.cutAtDot pos piece)
      else if c = '[' then .next (s.openBracket pos piece)
      else s.closeBracket pos piece

/-- The characters with their offsets, and the dot behind them. -/
def visits (pos : Nat) : List Char → List (Nat × Char)
  | [] => [(pos, '.')]
  | c :: cs => (pos, c) :: visits (pos + c.utf8Size) cs

/-- How a run of turns ends. -/
inductive Ending where
  | fault
  /-- The turns were over before the text was. -/
  | unfinished
  /-- The pieces, and the visits that were left. -/
  | flushed (pieces : List (List Char)) (left : List (Nat × Char))
deriving DecidableEq

/-- Makes the turns at these visits, until one of them ends the text. -/
def run (text : List Char) (s : Slicer) : List (Nat × Char) → Ending
  | [] => .unfinished
  | (pos, c) :: rest =>
    match s.turn text pos c with
    | .fault => .fault
    | .next s' => run text s' rest
    | .flush pieces => .flushed pieces rest

/-- The slicer comes to stand before these visits. -/
inductive Reaches (text : List Char) : Slicer → List (Nat × Char) → Prop where
  | start : Reaches text {} (visits 0 text)
  | next {s s' : Slicer} {pos : Nat} {c : Char} {rest : List (Nat × Char)} :
    Reaches text s ((pos, c) :: rest) → s.turn text pos c = .next s' → Reaches text s' rest

/-! ## One turn -/

/-- What the slicer has counted. -/
def counts (s : Slicer) : Counts := ⟨s.mute, s.depth⟩

/-- With a bracket open there is no fault. -/
theorem lower_eq {s : Slicer} (h : s.depth ≠ 0) :
    s.lower = .next { s with depth := s.depth - 1 } := by
  rw [lower]
  split
  · contradiction
  · rename_i hdepth
    rw [hdepth]
    rfl

section

variable {text : List Char} {s : Slicer} {pos : Nat} {piece : List Char} {c : Char}
  (hpos : pos ≠ Text.byteCount text) (hslice : Text.slice? text s.cut pos = some piece)

include hpos hslice

/-- Where a piece ends it is put behind the others, and the next one starts behind the character. -/
theorem turn_of_cuts (h : s.counts.cuts c = true) :
    ∃ s', s.turn text pos c = .next s' ∧ s'.counts = s.counts.step c ∧ s'.cut = pos + 1 ∧
      s'.closed ++ s'.pending = s.closed ++ s.pending ++ [piece] := by
  obtain ⟨hmute, hchar⟩ : s.mute = 0 ∧
      ((c = '.' ∨ c = '[' ∧ s.depth = 0) ∨ c = ']' ∧ s.depth = 1) := Counts.cuts_iff.mp h
  rcases hchar with (rfl | ⟨rfl, hdepth⟩) | ⟨rfl, hdepth⟩
  · refine ⟨s.cutAtDot pos piece, by simp [turn, hpos, hmute, hslice], ?_, rfl, ?_⟩
    · simp [counts, cutAtDot, Counts.step]
    · simp [cutAtDot]
  · refine ⟨s.openBracket pos piece, by simp [turn, hpos, hmute, hslice], ?_, ?_, ?_⟩
    · simp [counts, openBracket, cutAtBracket, hdepth, hmute, Counts.step]
    · simp [openBracket, cutAtBracket, hdepth]
    · simp [openBracket, cutAtBracket, hdepth]
  · refine ⟨{ s.cutAtBracket pos piece with depth := 0 }, ?_, ?_, rfl, ?_⟩
    · simp [turn, hpos, hmute, hslice, closeBracket, hdepth]
    · simp [counts, cutAtBracket, hdepth, hmute, Counts.step]
    · simp [cutAtBracket]

/-- Where no piece ends only the counts can change. -/
theorem turn_of_not_cuts (h : s.counts.cuts c = false) :
    s.turn text pos c =
      .next { s with mute := (s.counts.step c).mute, depth := (s.counts.step c).depth } := by
  by_cases hopen : c = '('
  · simp [turn, counts, Counts.step, hopen]
  by_cases hclose : c = ')'
  · simp [turn, counts, Counts.step, hclose]
  by_cases hmute : s.mute = 0
  · -- with no parenthesis open a dot cuts, an opening bracket does at depth 0, a closing one at 1
    by_cases hdot : c = '.'
    · simp [Counts.cuts, counts, hmute, hdot] at h
    by_cases hbracket : c = '['
    · have hdepth : s.depth ≠ 0 := by
        intro hdepth
        simp [Counts.cuts, counts, hmute, hbracket, hdepth] at h
      simp [turn, hbracket, hpos, hmute, hslice, openBracket, hdepth, counts, Counts.step]
    by_cases hbracket' : c = ']'
    · have hdepth : s.depth ≠ 1 := by
        intro hdepth
        simp [Counts.cuts, counts, hmute, hbracket', hdepth] at h
      by_cases hnone : s.depth = 0
      · -- a bracket that closes nothing leaves everything as it was
        obtain ⟨cut, mute, depth, pending, closed⟩ := s
        dsimp only at hmute hnone
        subst hmute hnone
        simp [turn, hbracket', hpos, hslice, closeBracket, counts, Counts.step]
      · simp [turn, hbracket', hpos, hmute, hslice, closeBracket, hnone, hdepth, lower_eq, counts,
          Counts.step]
    · simp [turn, hopen, hclose, hdot, hbracket, hbracket', counts, Counts.step]
  · simp [turn, hopen, hclose, hpos, hmute, counts, Counts.step]

end

/-- Behind the end of the text there is one more piece, muted or not. -/
theorem turn_at_end {text : List Char} {s : Slicer} {piece : List Char}
    (hrest : Text.dropBytes? s.cut text = some piece) :
    s.turn text (Text.byteCount text) '.' = .flush (s.closed ++ s.pending ++ [piece]) := by
  simp [turn, hrest]

end Slicer

/-! ## Where a scan stands -/

namespace Counts

variable {k : Counts} {c : Char}

/-- A character adds one to a count at most. -/
theorem step_le (k : Counts) (c : Char) :
    (k.step c).mute ≤ k.mute + 1 ∧ (k.step c).depth ≤ k.depth + 1 := by
  rw [step]
  split
  · exact ⟨Nat.le_refl _, Nat.le_add_right _ _⟩
  split
  · exact ⟨Nat.le_add_right_of_le (Nat.sub_le _ _), Nat.le_add_right _ _⟩
  split
  · exact ⟨Nat.le_add_right _ _, Nat.le_add_right _ _⟩
  split
  · exact ⟨Nat.le_add_right _ _, Nat.le_refl _⟩
  split
  · exact ⟨Nat.le_add_right _ _, Nat.le_add_right_of_le (Nat.sub_le _ _)⟩
  · exact ⟨Nat.le_add_right _ _, Nat.le_add_right _ _⟩

/-- A bracket that closes another one than the last does not cut. -/
theorem two_le_depth (hcut : k.cuts c = false) (hless : (k.step c).depth < k.depth) :
    2 ≤ k.depth := by
  by_contra hshallow
  have hone : k.depth = 1 := by omega
  by_cases hbracket : k.mute = 0 ∧ c = ']'
  · rw [cuts_iff.mpr ⟨hbracket.1, .inr ⟨hbracket.2, hone⟩⟩] at hcut
    cases hcut
  · -- nothing else takes a bracket away
    grind [step]

end Counts

namespace Scan

theorem pos_ofText (cs : List Char) : (ofText cs).pos = Text.byteCount cs := by
  rw [ofText, pos_foldl_step]
  exact Nat.zero_add _

theorem ofText_concat (cs : List Char) (c : Char) : ofText (cs ++ [c]) = (ofText cs).step c :=
  ofText_append cs [c]

/-- A scan has last cut behind a whole character, or nowhere yet. -/
theorem exists_cut (cs : List Char) :
    ∃ before piece, cs = before ++ piece ∧ (ofText cs).cut = Text.byteCount before := by
  induction cs using List.reverseRecOn with
  | nil => exact ⟨[], [], rfl, rfl⟩
  | append_singleton cs c ih =>
    rw [ofText_concat]
    by_cases hcut : (ofText cs).counts.cuts c = true
    · -- what cuts has one byte, so one behind its offset is the next character
      have hsize := Counts.utf8Size_of_cuts hcut
      refine ⟨cs ++ [c], [], (List.append_nil _).symm, ?_⟩
      rw [(step_of_cuts hcut).1, pos_ofText, Text.byteCount_append, Text.byteCount_cons, hsize]
      rfl
    · obtain ⟨before, piece, rfl, hbefore⟩ := ih
      refine ⟨before, piece ++ [c], List.append_assoc .., ?_⟩
      rw [(step_of_not_cuts (Bool.not_eq_true _ ▸ hcut)).1, hbefore]

/-- What has been read behind the last cut is there to be taken out, and so is what follows. -/
theorem exists_piece {text before ahead : List Char} (htext : text = before ++ ahead) :
    ∃ piece, Text.slice? text (ofText before).cut (Text.byteCount before) = some piece ∧
      Text.dropBytes? (ofText before).cut text = some (piece ++ ahead) := by
  obtain ⟨first, piece, rfl, hcut⟩ := exists_cut before
  rw [List.append_assoc] at htext
  refine ⟨piece, ?_, ?_⟩
  · rw [hcut, htext, Text.byteCount_append]
    exact Text.slice?_append first piece ahead
  · rw [hcut, htext]
    exact Text.dropBytes?_append first (piece ++ ahead)

/-- A scan does not count faster than it goes on. -/
theorem counts_le (cs : List Char) :
    (ofText cs).counts.mute ≤ Text.byteCount cs ∧ (ofText cs).counts.depth ≤ Text.byteCount cs := by
  induction cs using List.reverseRecOn with
  | nil => exact ⟨Nat.le_refl _, Nat.le_refl _⟩
  | append_singleton cs c ih =>
    have hstep := (ofText cs).counts.step_le c
    have hpos := c.utf8Size_pos
    rw [ofText_concat, counts_step, Text.byteCount_append, Text.byteCount_cons, Text.byteCount_nil]
    omega

end Scan

namespace Slicer

/-! ## Turn by turn with the scan -/

/-- The text of a span. -/
def textOf? (text : List Char) (span : Span) : Option (List Char) :=
  Text.slice? text span.start span.stop

/-- The slicer stands where the scan stands, and holds the texts of the spans that the scan has
noted. -/
structure Follows (text : List Char) (s : Slicer) (scan : Scan) : Prop where
  cut_eq : s.cut = scan.cut
  counts_eq : s.counts = scan.counts
  pieces_eq : (s.closed ++ s.pending).map some =
    (scan.closed ++ scan.pending).map (textOf? text)

/-- What holds of a slicer that visits an offset of the text. -/
structure Sound (text : List Char) (s : Slicer) (pos : Nat) : Prop where
  cut_le : s.cut ≤ pos
  pos_le : pos ≤ Text.byteCount text
  cut_boundary : Text.IsBoundary text s.cut
  pos_boundary : Text.IsBoundary text pos
  mute_le : s.mute ≤ pos
  depth_le : s.depth ≤ pos

variable {text before ahead piece : List Char} {s : Slicer} {c : Char}

/-- At the start a slicer follows the scan of the empty text. -/
theorem follows_start (text : List Char) : Follows text {} (Scan.ofText []) := ⟨rfl, rfl, rfl⟩

/-- A slicer that follows a scan is sound where the scan stands. -/
theorem Follows.sound (h : s.Follows text (Scan.ofText before)) (htext : text = before ++ ahead) :
    s.Sound text (Text.byteCount before) := by
  have hcounts := Scan.counts_le before
  rw [← h.counts_eq] at hcounts
  obtain ⟨first, piece, hbefore, hcut⟩ := Scan.exists_cut before
  rw [← h.cut_eq] at hcut
  have hle : s.cut ≤ Text.byteCount before := by
    rw [hcut, hbefore, Text.byteCount_append]
    exact Nat.le_add_right _ _
  have hboundary : Text.IsBoundary text (Text.byteCount before) := ⟨before, ahead, htext, rfl⟩
  have hcut_boundary : Text.IsBoundary text s.cut :=
    ⟨first, piece ++ ahead, by rw [htext, hbefore, List.append_assoc], hcut.symm⟩
  exact ⟨hle, hboundary.le, hcut_boundary, hboundary, hcounts.1, hcounts.2⟩

/-- The next piece is the text of the next span. -/
theorem Follows.pieces_concat (h : s.Follows text (Scan.ofText before))
    (hslice : Text.slice? text s.cut (Text.byteCount before) = some piece) :
    (s.closed ++ s.pending ++ [piece]).map some =
      (Scan.ofText before).spans.map (textOf? text) := by
  have hspan : textOf? text (Scan.ofText before).piece = some piece := by
    rw [textOf?, Scan.piece, Scan.pos_ofText, ← h.cut_eq, hslice]
  rw [List.map_append, h.pieces_eq, List.map_singleton, ← hspan, ← List.map_singleton,
    ← List.map_append]
  rfl

/-- At a character a slicer goes on as the scan does. -/
theorem Follows.turn (h : s.Follows text (Scan.ofText before))
    (htext : text = before ++ c :: ahead) :
    ∃ s', s.turn text (Text.byteCount before) c = .next s' ∧
      s'.Follows text (Scan.ofText (before ++ [c])) := by
  obtain ⟨piece, hslice, -⟩ := Scan.exists_piece htext
  rw [← h.cut_eq] at hslice
  have hpos : Text.byteCount before ≠ Text.byteCount text := by
    have hsize := c.utf8Size_pos
    rw [htext, Text.byteCount_append, Text.byteCount_cons]
    omega
  rw [Scan.ofText_concat]
  by_cases hcuts : s.counts.cuts c = true
  -- the cut, the counts and the pieces, each on both sides
  · obtain ⟨s', hturn, hcounts, hcut, hpieces⟩ := turn_of_cuts hpos hslice hcuts
    rw [h.counts_eq] at hcuts hcounts
    obtain ⟨hscan, hspans⟩ := Scan.step_of_cuts hcuts
    refine ⟨s', hturn, ?_, ?_, ?_⟩
    · rw [hcut, hscan, Scan.pos_ofText]
    · rw [hcounts, Scan.counts_step]
    · rw [hpieces, hspans]
      exact h.pieces_concat hslice
  · rw [Bool.not_eq_true] at hcuts
    have hturn := turn_of_not_cuts hpos hslice hcuts
    rw [h.counts_eq] at hcuts
    obtain ⟨hscan, hclosed, hpending⟩ := Scan.step_of_not_cuts hcuts
    refine ⟨_, hturn, ?_, ?_, ?_⟩
    · rw [hscan, ← h.cut_eq]
    · rw [Scan.counts_step, ← h.counts_eq]
      rfl
    · rw [hclosed, hpending]
      exact h.pieces_eq

/-- At the end a slicer gives the pieces of the text. -/
theorem Follows.flush (h : s.Follows text (Scan.ofText text)) :
    s.turn text (Text.byteCount text) '.' = .flush (rawPieces text) := by
  obtain ⟨piece, hslice, hrest⟩ := Scan.exists_piece (List.append_nil text).symm
  rw [List.append_nil, ← h.cut_eq] at hrest
  -- no span is lost on the way from the spans to the pieces, since each one has a text
  have hpieces : rawPieces text = s.closed ++ s.pending ++ [piece] :=
    calc rawPieces text
        = ((Scan.ofText text).spans.map (textOf? text)).filterMap id := by
          rw [List.filterMap_map]
          rfl
      _ = ((s.closed ++ s.pending ++ [piece]).map some).filterMap id := by
          rw [h.pieces_concat (h.cut_eq ▸ hslice)]
      _ = s.closed ++ s.pending ++ [piece] := by
          rw [List.filterMap_map]
          exact List.filterMap_some
  rw [turn_at_end hrest, hpieces]

/-! ## Every turn -/

/-- The slicer comes to every character, and to the end. -/
theorem exists_reaches (htext : text = before ++ ahead) :
    ∃ s, Reaches text s (visits (Text.byteCount before) ahead) ∧
      s.Follows text (Scan.ofText before) := by
  induction before using List.reverseRecOn generalizing ahead with
  | nil =>
    subst htext
    exact ⟨{}, .start, follows_start _⟩
  | append_singleton before c ih =>
    rw [List.append_assoc] at htext
    obtain ⟨s, hreaches, hfollows⟩ := ih htext
    obtain ⟨s', hturn, hfollows'⟩ := hfollows.turn htext
    refine ⟨s', ?_, hfollows'⟩
    rw [Text.byteCount_append]
    exact .next hreaches hturn

/-- There is nothing else that it comes to. -/
theorem follows_of_reaches {left : List (Nat × Char)} (h : Reaches text s left) :
    ∃ before ahead, text = before ++ ahead ∧ left = visits (Text.byteCount before) ahead ∧
      s.Follows text (Scan.ofText before) := by
  induction h with
  | start => exact ⟨[], text, rfl, rfl, follows_start text⟩
  | @next s s' pos c rest _ hturn ih =>
    obtain ⟨before, ahead, htext, hleft, hfollows⟩ := ih
    cases ahead with
    | nil =>
      -- the end is no turn to go on from
      rw [List.append_nil] at htext
      subst htext
      cases hleft
      rw [hfollows.flush] at hturn
      cases hturn
    | cons d ahead =>
      cases hleft
      obtain ⟨s'', hturn', hfollows'⟩ := hfollows.turn htext
      rw [hturn] at hturn'
      cases hturn'
      refine ⟨before ++ [c], ahead, by simp [htext], ?_, hfollows'⟩
      rw [Text.byteCount_append]
      rfl

/-- From wherever it stands a slicer comes to the end of the text. -/
theorem run_of_follows (h : s.Follows text (Scan.ofText before)) (htext : text = before ++ ahead) :
    s.run text (visits (Text.byteCount before) ahead) = .flushed (rawPieces text) [] := by
  induction ahead generalizing s before with
  | nil =>
    rw [List.append_nil] at htext
    subst htext
    rw [visits, run, h.flush]
  | cons c ahead ih =>
    obtain ⟨s', hturn, hfollows⟩ := h.turn htext
    have hrest := ih hfollows (by simp [htext])
    rw [Text.byteCount_append] at hrest
    rw [visits, run, hturn]
    exact hrest

/-- A sound slicer finds both of its slices. -/
theorem Sound.slices {pos : Nat} (h : s.Sound text pos) :
    (Text.slice? text s.cut pos).isSome ∧ (Text.dropBytes? s.cut text).isSome :=
  ⟨Text.isSome_slice?_iff.mpr ⟨h.cut_le, h.cut_boundary, h.pos_boundary⟩,
    Text.isSome_dropBytes?_iff.mpr h.cut_boundary⟩

/-- Where a bracket closes and does not cut, another one stays open. -/
theorem Follows.two_le_depth {s' : Slicer} (htext : text = before ++ ahead)
    (h : s.Follows text (Scan.ofText before)) (h' : s'.Follows text (Scan.ofText (before ++ [c])))
    (hcut : s'.cut = s.cut) (hless : s'.depth < s.depth) : 2 ≤ s.depth := by
  have hcounts : s'.counts = s.counts.step c := by
    rw [h'.counts_eq, Scan.ofText_concat, Scan.counts_step, h.counts_eq]
  have huncut : s.counts.cuts c = false := by
    rw [← Bool.not_eq_true]
    intro hcuts
    -- the next piece would start behind the character
    have hnext : s'.cut = Text.byteCount before + 1 := by
      rw [h'.cut_eq, Scan.ofText_concat, (Scan.step_of_cuts (h.counts_eq ▸ hcuts)).1,
        Scan.pos_ofText]
    have hle := (h.sound htext).cut_le
    omega
  have hdepth : (s.counts.step c).depth < s.counts.depth := by
    rw [← hcounts]
    exact hless
  exact Counts.two_le_depth huncut hdepth

end Slicer

/-- Splitting a path text never takes a slice that is not there, nor closes a bracket that is not
open. A slicer comes to every character and stands there as the scan does. Wherever it comes to, its
offsets are boundaries in their order, and a bracket that it closes without a cut is not the last
one that is open. Only the turn behind the last character ends the text, and then all pieces are
there. -/
theorem slicer_never_faults (text : List Char) :
    (∀ before ahead, text = before ++ ahead →
      ∃ s, Slicer.Reaches text s (Slicer.visits (Text.byteCount before) ahead) ∧
        s.Follows text (Scan.ofText before)) ∧
      (∀ s pos c rest, Slicer.Reaches text s ((pos, c) :: rest) →
        s.Sound text pos ∧
          (Text.slice? text s.cut pos).isSome ∧ (Text.dropBytes? s.cut text).isSome ∧
          s.turn text pos c ≠ .fault ∧
          (∀ s', s.turn text pos c = .next s' → s'.cut = s.cut → s'.depth < s.depth →
            2 ≤ s.depth) ∧
          ((∃ pieces, s.turn text pos c = .flush pieces) ↔ rest = [])) ∧
      Slicer.run text {} (Slicer.visits 0 text) = .flushed (rawPieces text) [] := by
  refine ⟨fun before ahead => Slicer.exists_reaches, ?_,
    Slicer.run_of_follows (Slicer.follows_start text) rfl⟩
  intro s pos c rest h
  obtain ⟨before, ahead, htext, hleft, hfollows⟩ := Slicer.follows_of_reaches h
  have hsound := hfollows.sound htext
  cases ahead with
  | nil =>
    -- the turn behind the last character
    rw [List.append_nil] at htext
    subst htext
    cases hleft
    have hflush := hfollows.flush
    refine ⟨hsound, hsound.slices.1, hsound.slices.2, ?_, ?_, iff_of_true ⟨_, hflush⟩ rfl⟩
    · rw [hflush]
      exact nofun
    · rw [hflush]
      exact nofun
  | cons d ahead =>
    cases hleft
    obtain ⟨s', hturn, hfollows'⟩ := hfollows.turn htext
    refine ⟨hsound, hsound.slices.1, hsound.slices.2, ?_, ?_, ?_⟩
    · rw [hturn]
      exact nofun
    · intro s'' hturn' hcut hless
      rw [hturn] at hturn'
      cases hturn'
      exact Slicer.Follows.two_le_depth htext hfollows hfollows' hcut hless
    · rw [hturn]
      refine iff_of_false nofun ?_
      cases ahead <;> exact List.cons_ne_nil _ _

/-- A bracket in a bracket behind a character of two bytes. The one that closes is the inner one,
and the text ends inside of the outer one. -/
theorem slicer_never_faults_nested :
    let before := "é[[x".toList
    let text := before ++ [']']
    let s : Slicer := { cut := 3, depth := 2, closed := [['é']] }
    let s' : Slicer := { s with depth := 1 }
    (∃ s, Slicer.Reaches text s (Slicer.visits (Text.byteCount before) [']']) ∧
        s.Follows text (Scan.ofText before)) ∧
      Slicer.Reaches text s [(5, ']'), (6, '.')] ∧
      (s.Sound text 5 ∧ s.turn text 5 ']' ≠ .fault) ∧
      s.turn text 5 ']' = .next s' ∧ s'.cut = s.cut ∧ s'.depth < s.depth ∧ 2 ≤ s.depth ∧
      Slicer.run text {} (Slicer.visits 0 text) = .flushed [['é'], ['[', 'x', ']']] [] := by
  intro before text s s'
  obtain ⟨hall, hsafe, hrun⟩ := slicer_never_faults text
  have hreaches : Slicer.Reaches text s [(5, ']'), (6, '.')] :=
    .next (.next (.next (.next .start rfl) rfl) rfl) rfl
  have hturn : s.turn text 5 ']' = .next s' := by decide
  have hcut : s'.cut = s.cut := rfl
  have hless : s'.depth < s.depth := by decide
  obtain ⟨hsound, -, -, hfault, hdepth, -⟩ := hsafe s 5 ']' [(6, '.')] hreaches
  exact ⟨hall before [']'] rfl, hreaches, ⟨hsound, hfault⟩, hturn, hcut, hless,
    hdepth s' hturn hcut hless, hrun⟩

end PathQuery
