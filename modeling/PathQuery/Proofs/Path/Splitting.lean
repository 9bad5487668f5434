import PathQuery.Path.Segment

/-!
# Splitting without offsets

`Counts` is what a scan counts, `cuts` says at which characters a piece ends, and `split` collects
the pieces as texts.

* `rawPieces_eq_split`: the spans of the scan, looked up in the text, are the pieces of `split`. No
  span is refused.
* `split_append`: the last piece of a text and the first piece of what follows are one piece. A cut
  keeps them apart (`split_append_cut`).
* `Calm` texts neither cut nor count.
* `pathPieces_append_dot`: behind a balanced text a dot starts afresh.
-/

namespace PathQuery

/-- The open parentheses and brackets of a scan. -/
structure Counts where
  mute : Nat := 0
  depth : Nat := 0
deriving DecidableEq

namespace Counts

/-- Whether a piece ends at the character. -/
def cuts (k : Counts) (c : Char) : Bool :=
  k.mute = 0 && (c = '.' || (c = '[' && k.depth = 0) || (c = ']' && k.depth = 1))

/-- The counts behind the character. -/
def step (k : Counts) (c : Char) : Counts :=
  if c = '(' then { k with mute := k.mute + 1 }
  else if c = ')' then { k with mute := k.mute - 1 }
  else if k.mute ≠ 0 then k
  else if c = '[' then { k with depth := k.depth + 1 }
  else if c = ']' then { k with depth := k.depth - 1 }
  else k

/-- The counts behind the text. -/
def run (k : Counts) (cs : List Char) : Counts := cs.foldl step k

/-- The pieces of the text, whole as they stand. There is always at least one. -/
def split (k : Counts) : List Char → List (List Char)
  | [] => [[]]
  | c :: cs =>
    if k.cuts c then [] :: (k.step c).split cs else ((k.step c).split cs).modifyHead (c :: ·)

/-! ## Running on -/

@[simp] theorem run_nil (k : Counts) : k.run [] = k := rfl

@[simp] theorem run_cons (k : Counts) (c : Char) (cs : List Char) :
    k.run (c :: cs) = (k.step c).run cs := rfl

theorem run_append (k : Counts) (cs ds : List Char) : k.run (cs ++ ds) = (k.run cs).run ds :=
  List.foldl_append

theorem step_dot (k : Counts) : k.step '.' = k := by
  simp [step]

/-- Outside parentheses the text is cut at a dot, and at the brackets of an outermost pair. -/
theorem cuts_iff {k : Counts} {c : Char} :
    k.cuts c = true ↔
      k.mute = 0 ∧ ((c = '.' ∨ c = '[' ∧ k.depth = 0) ∨ c = ']' ∧ k.depth = 1) := by
  simp [cuts]

/-- A character that ends a piece is a single byte. -/
theorem utf8Size_of_cuts {k : Counts} {c : Char} (h : k.cuts c = true) : c.utf8Size = 1 := by
  rcases (cuts_iff.mp h).2 with (rfl | ⟨rfl, -⟩) | ⟨rfl, -⟩ <;> rfl

/-! ## The pieces of neighbouring texts -/

/-- There is always a piece. -/
theorem split_ne_nil (k : Counts) (cs : List Char) : k.split cs ≠ [] := by
  induction cs generalizing k with
  | nil => simp [split]
  | cons c cs ih =>
    rw [split]
    split
    · simp
    · simpa [List.modifyHead_eq_nil_iff] using ih (k.step c)

/-- The last piece of the front text and the first piece of what follows are one piece. -/
theorem split_append (k : Counts) (cs ds : List Char) :
    k.split (cs ++ ds) = (k.split cs).dropLast ++
      ((k.run cs).split ds).modifyHead ((k.split cs).getLast (k.split_ne_nil cs) ++ ·) := by
  induction cs generalizing k with
  | nil => exact (congrFun List.modifyHead_id _).symm
  | cons c cs ih =>
    obtain ⟨piece, rest, hs⟩ := List.exists_cons_of_ne_nil ((k.step c).split_ne_nil cs)
    obtain ⟨piece', rest', hd⟩ := List.exists_cons_of_ne_nil (((k.step c).run cs).split_ne_nil ds)
    have htail := ih (k.step c)
    simp only [hs, hd] at htail
    simp only [List.cons_append, split, run_cons, htail, hs, hd]
    by_cases hc : k.cuts c = true
    · simp [hc]
    · -- the character lengthens the first piece, which may be the last one as well
      cases rest <;> simp [hc]

/-- A character that cuts behind the front text keeps the two texts apart. -/
theorem split_append_cut {k : Counts} {cs : List Char} {c : Char} (h : (k.run cs).cuts c = true)
    (ds : List Char) :
    k.split (cs ++ c :: ds) = k.split cs ++ ((k.run cs).step c).split ds := by
  rw [split_append, split, if_pos h, List.modifyHead_cons, List.append_nil,
    ← List.singleton_append, ← List.append_assoc, List.dropLast_concat_getLast]

/-- A dot is a cut where no parenthesis is open, and what is counted goes on behind it. -/
theorem split_append_dot {k : Counts} {cs : List Char} (h : (k.run cs).mute = 0)
    (ds : List Char) : k.split (cs ++ '.' :: ds) = k.split cs ++ (k.run cs).split ds := by
  have hcut : (k.run cs).cuts '.' = true := by simp [cuts, h]
  rw [split_append_cut hcut, step_dot]

/-- A front text without a cut only lengthens the first piece of what follows. -/
theorem split_append_of_uncut {k : Counts} {cs : List Char} (h : k.split cs = [cs])
    (ds : List Char) :
    k.split (cs ++ ds) = ((k.run cs).split ds).modifyHead (cs ++ ·) := by
  rw [split_append]
  simp only [h, List.dropLast_singleton, List.nil_append, List.getLast_singleton]

/-! ## Texts without a cut -/

/-- The characters that a scan looks at. -/
def isStructural (c : Char) : Bool := c = '.' || c = '[' || c = ']' || c = '(' || c = ')'

/-- No piece ends in the text, and the counts behind it are those before it. -/
def Calm (k : Counts) (cs : List Char) : Prop := k.split cs = [cs] ∧ k.run cs = k

theorem calm_nil (k : Counts) : k.Calm [] := ⟨rfl, rfl⟩

/-- In front of another text a calm text lengthens the first piece. -/
theorem Calm.split_append {k : Counts} {cs : List Char} (h : k.Calm cs) (ds : List Char) :
    k.split (cs ++ ds) = (k.split ds).modifyHead (cs ++ ·) := by
  rw [split_append_of_uncut h.1, h.2]

theorem Calm.append {k : Counts} {cs ds : List Char} (hc : k.Calm cs) (hd : k.Calm ds) :
    k.Calm (cs ++ ds) := by
  constructor
  · rw [hc.split_append, hd.1, List.modifyHead_cons]
  · rw [run_append, hc.2, hd.2]

/-- Every single character neither cuts nor counts. -/
theorem calm_of_forall {k : Counts} {cs : List Char}
    (h : ∀ c ∈ cs, k.cuts c = false ∧ k.step c = k) : k.Calm cs := by
  induction cs with
  | nil => exact k.calm_nil
  | cons c cs ih =>
    rw [List.forall_mem_cons] at h
    obtain ⟨⟨hcut, hstep⟩, hrest⟩ := h
    obtain ⟨hsplit, hrun⟩ := ih hrest
    constructor
    · rw [split, hcut, hstep, hsplit]
      rfl
    · rw [run_cons, hstep, hrun]

/-- A text without structural characters is calm. -/
theorem calm_of_plain {cs : List Char} (h : ∀ c ∈ cs, isStructural c = false) (k : Counts) :
    k.Calm cs := by
  apply calm_of_forall
  intro c hc
  have hplain : c ≠ '.' ∧ c ≠ '[' ∧ c ≠ ']' ∧ c ≠ '(' ∧ c ≠ ')' := by
    simpa [isStructural, and_assoc] using h c hc
  obtain ⟨hdot, hopen, hclose, hparen, hparen'⟩ := hplain
  simp [cuts, step, hdot, hopen, hclose, hparen, hparen']

/-- Inside parentheses a text without further ones is calm. -/
theorem calm_of_muted {k : Counts} (hk : k.mute ≠ 0) {cs : List Char}
    (h : ∀ c ∈ cs, c ≠ '(' ∧ c ≠ ')') : k.Calm cs := by
  apply calm_of_forall
  intro c hc
  obtain ⟨hopen, hclose⟩ := h c hc
  simp [cuts, step, hk, hopen, hclose]

/-- Whatever stands between two parentheses, but for further ones, is muted. -/
theorem calm_parenthesized {cs : List Char} (h : ∀ c ∈ cs, c ≠ '(' ∧ c ≠ ')') (k : Counts) :
    k.Calm ('(' :: (cs ++ [')'])) := by
  have hstep : k.step '(' = { k with mute := k.mute + 1 } := by simp [step]
  have hback : (k.step '(').step ')' = k := by simp [step]
  have hinner : (k.step '(').Calm cs := calm_of_muted (by simp [hstep]) h
  have hcut : (k.step '(').split [')'] = [[')']] := by simp [split, cuts]
  constructor
  · rw [split, if_neg (by simp [cuts]), hinner.split_append, hcut]
    rfl
  · rw [run_cons, run_append, hinner.2, run_cons, hback, run_nil]

end Counts

/-! ## The scan finds these pieces -/

namespace Scan

/-- What the scan has counted. -/
def counts (s : Scan) : Counts := ⟨s.mute, s.depth⟩

/-- A step of the scan counts as `Counts.step` does. -/
theorem counts_step (s : Scan) (c : Char) : (s.step c).counts = s.counts.step c := by
  simp only [step, delimit, Counts.step, counts]
  by_cases hopen : c = '('
  · simp [hopen]
  by_cases hclose : c = ')'
  · simp [hclose]
  simp only [hopen, hclose, if_false]
  -- brackets count only where no parenthesis is open
  by_cases hmute : s.mute = 0
  · simp only [hmute, ne_eq, not_true_eq_false, if_false]
    by_cases hdot : c = '.'
    · subst hdot
      simp [cutAtDot, hmute]
    by_cases hbracket : c = '['
    · subst hbracket
      by_cases hdepth : s.depth = 0 <;> simp [openBracket, cutAtBracket, hdepth, hmute]
    by_cases hbracket' : c = ']'
    · subst hbracket'
      by_cases hdepth : s.depth = 0
      · simp [closeBracket, hdepth, hmute]
      by_cases hdepth' : s.depth = 1 <;> simp [closeBracket, cutAtBracket, hdepth, hdepth', hmute]
    · simp [hdot, hbracket, hbracket', hmute]
  · simp [hmute]

theorem counts_foldl_step (cs : List Char) (s : Scan) :
    (cs.foldl step s).counts = s.counts.run cs := by
  induction cs generalizing s with
  | nil => rfl
  | cons c cs ih => rw [List.foldl_cons, ih, counts_step, Counts.run_cons]

/-- A scan of a text counts as `Counts.run` does. -/
theorem counts_ofText (cs : List Char) : (ofText cs).counts = ({} : Counts).run cs :=
  counts_foldl_step cs {}

/-- A text is closed iff all counts are zero behind it. -/
theorem isClosed_iff {cs : List Char} : (ofText cs).IsClosed ↔ ({} : Counts).run cs = {} := by
  rw [← counts_ofText, counts, Counts.mk.injEq, IsClosed]

/-- Where a piece ends it is noted behind the others, and the next one starts behind the
character. -/
theorem step_of_cuts {s : Scan} {c : Char} (h : s.counts.cuts c = true) :
    (s.step c).cut = s.pos + 1 ∧
      (s.step c).closed ++ (s.step c).pending = s.closed ++ s.pending ++ [s.piece] := by
  obtain ⟨hmute, hchar⟩ : s.mute = 0 ∧
      ((c = '.' ∨ c = '[' ∧ s.depth = 0) ∨ c = ']' ∧ s.depth = 1) := Counts.cuts_iff.mp h
  rcases hchar with (rfl | ⟨rfl, hdepth⟩) | ⟨rfl, hdepth⟩
  · simp [step, delimit, hmute, cutAtDot]
  · simp [step, delimit, hmute, openBracket, cutAtBracket, hdepth]
  · simp [step, delimit, hmute, closeBracket, cutAtBracket, hdepth]

/-- Where no piece ends the pieces stay as they are. -/
theorem step_of_not_cuts {s : Scan} {c : Char} (h : s.counts.cuts c = false) :
    (s.step c).cut = s.cut ∧ (s.step c).closed = s.closed ∧ (s.step c).pending = s.pending := by
  simp only [step, delimit]
  split
  · exact ⟨rfl, rfl, rfl⟩
  split
  · exact ⟨rfl, rfl, rfl⟩
  split
  · exact ⟨rfl, rfl, rfl⟩
  -- no parenthesis is open, and a dot would have been a cut
  rename_i hmute
  simp only [Counts.cuts, counts, Decidable.not_not.mp hmute] at h
  split
  · simp_all
  split
  · have hdepth : s.depth ≠ 0 := by simp_all
    rw [openBracket, if_neg hdepth]
    exact ⟨rfl, rfl, rfl⟩
  split
  · have hdepth : s.depth ≠ 1 := by simp_all
    rw [closeBracket, if_neg hdepth]
    split <;> exact ⟨rfl, rfl, rfl⟩
  · exact ⟨rfl, rfl, rfl⟩

/-- The spans of a scan that goes on. `before` is the text up to the last cut, `piece` the part of
the open piece that has been read, and `rest` what is still to be read. -/
theorem filterMap_spans_foldl_step (rest before piece : List Char) {s : Scan} {text : List Char}
    (htext : text = before ++ (piece ++ rest)) (hcut : s.cut = Text.byteCount before)
    (hpos : s.pos = Text.byteCount before + Text.byteCount piece) :
    ((rest.foldl step s).spans.filterMap fun span => Text.slice? text span.start span.stop) =
      ((s.closed ++ s.pending).filterMap fun span => Text.slice? text span.start span.stop) ++
        (s.counts.split rest).modifyHead (piece ++ ·) := by
  induction rest generalizing s before piece with
  | nil =>
    have hslice : Text.slice? text s.cut s.pos = some piece := by
      rw [htext, hcut, hpos]
      exact Text.slice?_append before piece []
    simp [spans, Scan.piece, hslice, Counts.split]
  | cons c rest ih =>
    rw [List.foldl_cons, Counts.split, ← counts_step]
    by_cases hc : s.counts.cuts c = true
    · -- the open piece is noted, and the next one starts behind the character
      obtain ⟨hcut', hpieces⟩ := step_of_cuts hc
      have hslice : Text.slice? text s.cut s.pos = some piece := by
        rw [htext, hcut, hpos]
        exact Text.slice?_append before piece (c :: rest)
      have hsize := Counts.utf8Size_of_cuts hc
      rw [if_pos hc, ih (before ++ piece ++ [c]) [] (by simp [htext])
        (by simp [hcut', hpos, hsize]; omega) (by simp [hpos, hsize]; omega), hpieces]
      rw [List.filterMap_append, List.append_assoc, List.modifyHead_cons, List.append_nil]
      have hfresh : ((s.step c).counts.split rest).modifyHead ([] ++ ·) =
          (s.step c).counts.split rest := congrFun List.modifyHead_id _
      rw [hfresh]
      simp [Scan.piece, hslice]
    · -- the character becomes part of the open piece
      have hc' : s.counts.cuts c = false := by simpa using hc
      obtain ⟨hcut', hclosed, hpending⟩ := step_of_not_cuts hc'
      rw [if_neg hc, ih before (piece ++ [c]) (by simp [htext]) (by rw [hcut', hcut])
        (by simp [hpos, Nat.add_assoc]), hclosed, hpending]
      simp [Function.comp_def]

end Scan

/-- The pieces of a path text are those that the counts alone give. -/
theorem rawPieces_eq_split (cs : List Char) : rawPieces cs = ({} : Counts).split cs := by
  have htext : cs = [] ++ ([] ++ cs) := rfl
  rw [rawPieces, Scan.ofText, Scan.filterMap_spans_foldl_step cs [] [] htext rfl rfl]
  exact congrFun List.modifyHead_id _

namespace Text

/-- The texts trimmed, without those of which nothing is left. -/
def solid (pieces : List (List Char)) : List (List Char) := (pieces.map trim).filter (!·.isEmpty)

@[simp] theorem solid_nil : solid [] = [] := rfl

/-- `solid` treats each piece on its own. -/
@[simp] theorem solid_append (ps qs : List (List Char)) :
    solid (ps ++ qs) = solid ps ++ solid qs := by
  simp [solid]

theorem solid_cons (p : List Char) (ps : List (List Char)) :
    solid (p :: ps) = if (trim p).isEmpty then solid ps else trim p :: solid ps := by
  rw [solid, List.map_cons, List.filter_cons]
  cases h : (trim p).isEmpty <;> simp [solid]

end Text

/-- The pieces of a path text in terms of `split`. -/
theorem pathPieces_eq_solid (cs : List Char) :
    pathPieces cs = Text.solid (({} : Counts).split cs) := by
  rw [pathPieces, rawPieces_eq_split, Text.solid]

/-- Behind a balanced text a dot starts afresh. -/
theorem pathPieces_append_dot {cs : List Char} (h : (Scan.ofText cs).IsClosed) (ds : List Char) :
    pathPieces (cs ++ '.' :: ds) = pathPieces cs ++ pathPieces ds := by
  have hrun : ({} : Counts).run cs = {} := Scan.isClosed_iff.mp h
  have hmute : (({} : Counts).run cs).mute = 0 := congrArg Counts.mute hrun
  simp only [pathPieces_eq_solid]
  rw [Counts.split_append_dot hmute, hrun, Text.solid_append]

/-- The segments of two texts joined by a dot, the first of them balanced. -/
theorem Path.ofText_append_dot {p : String} (h : (Scan.ofText p.toList).IsClosed) (q : String) :
    Path.ofText (p ++ "." ++ q) = Path.ofText p ++ Path.ofText q := by
  have htext : (p ++ "." ++ q).toList = p.toList ++ '.' :: q.toList := by simp
  rw [Path.ofText, htext, pathPieces_append_dot h, List.map_append]
  rfl

/-- The segments of balanced texts that are joined by dots. -/
theorem Path.ofText_intercalate {texts : List String}
    (h : ∀ text ∈ texts, (Scan.ofText text.toList).IsClosed) :
    Path.ofText (".".intercalate texts) = texts.flatMap Path.ofText := by
  induction texts with
  | nil => rfl
  | cons text rest ih =>
    rw [List.forall_mem_cons] at h
    cases rest with
    | nil => rw [String.intercalate_singleton, List.flatMap_singleton]
    | cons next others =>
      rw [String.intercalate_cons_cons, Path.ofText_append_dot h.1, ih h.2]
      rfl

end PathQuery
