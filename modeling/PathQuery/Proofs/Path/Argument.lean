import PathQuery.Proofs.Path.Classification

/-!
# What a text spells as an argument

`Segment.cleaned` is a text as an argument of a call: blanks, one pair of quotes, and blanks again
are taken away.

* `Path.ofText_trim`: blanks around a path text do not matter.
* `Segment.IsName` is a single piece that is the same key with and without quotes.
* `Path.ofText_quoted_eq_iff`: quotes around a text leave its path alone iff it is a name. Around
  several pieces they add one quote to the first piece, and `count_quote_unquote` shows that
  unquoting takes two or none.
* `Path.ofText_cleaned_iff` is the condition under which cleaning leaves the path of a text alone.
* `Path.isArgument_of_mem`: every argument of a parsed call is an `IsArgument`.
-/

namespace PathQuery

open Text (Blanks Padding quoted trim unquote solid)

/-! ## Blanks around a path -/

/-- Trimming takes blanks away at the two ends and nothing else. -/
theorem Text.exists_around (cs : List Char) : ∃ p : Padding, p.around (trim cs) = cs := by
  have hsplit := List.takeWhile_append_dropWhile (p := isBlank) (l := cs)
  have hsplit' := List.takeWhile_append_dropWhile (p := isBlank)
    (l := (cs.dropWhile isBlank).reverse)
  have hblank : ∀ ds : List Char, ∀ c ∈ ds.takeWhile isBlank, isBlank c = true := fun ds =>
    List.all_eq_true.mp (List.all_takeWhile (p := isBlank) (l := ds))
  refine ⟨⟨⟨cs.takeWhile isBlank, hblank cs⟩,
    ⟨((cs.dropWhile isBlank).reverse.takeWhile isBlank).reverse, ?_⟩⟩, ?_⟩
  · intro c hc
    exact hblank _ c (List.mem_reverse.mp hc)
  · show cs.takeWhile isBlank ++ (trim cs ++ _) = cs
    rw [trim, ← List.reverse_append, hsplit', List.reverse_reverse, hsplit]

/-- Blanks in front of the first piece do not matter. -/
theorem Text.solid_modifyHead (bs : Blanks) (pieces : List (List Char)) :
    solid (pieces.modifyHead (bs.1 ++ ·)) = solid pieces := by
  cases pieces with
  | nil => rfl
  | cons piece rest => rw [List.modifyHead_cons, solid_cons, solid_cons, trim_append_left]

/-- Blanks around a path text are blanks around its first and its last piece. -/
theorem pathPieces_around (p : Padding) (cs : List Char) :
    pathPieces (p.around cs) = pathPieces cs := by
  have hafter := (Counts.calm_blanks p.after (({} : Counts).run cs)).1
  have hlast := List.dropLast_concat_getLast (({} : Counts).split_ne_nil cs)
  rw [pathPieces_eq_solid, pathPieces_eq_solid, Padding.around,
    (Counts.calm_blanks p.before {}).split_append, Text.solid_modifyHead, Counts.split_append,
    hafter, List.modifyHead_cons, Text.solid_append, Text.solid_cons, Text.trim_append_right,
    ← Text.solid_cons, ← Text.solid_append, hlast]

/-- Blanks around a path text do not matter. -/
theorem Path.ofText_trim (cs : List Char) :
    Path.ofText (String.ofList (trim cs)) = Path.ofText (String.ofList cs) := by
  obtain ⟨p, hp⟩ := Text.exists_around cs
  rw [Path.ofText, Path.ofText, String.toList_ofList, String.toList_ofList, ← hp,
    pathPieces_around, Text.trim_around, Text.trim_trim]

/-! ## Counting quotes -/

theorem Text.count_quote_trim (cs : List Char) : (trim cs).count '\'' = cs.count '\'' := by
  have hblanks : ∀ bs : Blanks, bs.1.count '\'' = 0 := by
    intro bs
    rw [List.count_eq_zero]
    intro hmem
    exact absurd (bs.2 _ hmem) (by decide)
  obtain ⟨p, hp⟩ := exists_around cs
  have hcount : (p.around (trim cs)).count '\'' = (trim cs).count '\'' := by
    rw [Padding.around, List.count_append, List.count_append, hblanks, hblanks]
    omega
  rw [← hcount, hp]

theorem Text.count_quote_quoted (cs : List Char) :
    (quoted cs).count '\'' = cs.count '\'' + 2 := by
  rw [quoted, List.count_cons_self, List.count_append]
  rfl

/-- Unquoting takes two quotes away, or none. -/
theorem Text.count_quote_unquote (cs : List Char) :
    (unquote cs).count '\'' % 2 = cs.count '\'' % 2 := by
  by_cases hquoted : ∃ ds, cs = quoted ds
  · obtain ⟨ds, rfl⟩ := hquoted
    have hcount := count_quote_quoted ds
    rw [unquote_quoted]
    omega
  · rw [unquote_of_not_quoted fun ds hds => hquoted ⟨ds, hds⟩]

/-! ## Keys -/

namespace Segment

/-- What a piece is taken for that is neither a numeral nor a call. -/
theorem ofText_of_not_mem {cs : List Char} (hnumeral : Binary64.ofText? (trim cs) = none)
    (hcall : '(' ∉ cs) : ofText cs = key (String.ofList (trim (unquote (trim cs)))) := by
  have hop : calledOperator? (trim cs) = none := by
    rw [calledOperator?, if_neg]
    intro hmem
    exact hcall (Text.mem_of_mem_trim (by simpa using hmem))
  simp only [ofText, hnumeral, hop, ite_self]

/-- A quote in front of a piece makes something else of it. -/
theorem ofText_cons_quote {cs : List Char} (hcall : '(' ∉ cs) :
    ofText ('\'' :: cs) ≠ ofText cs := by
  have hkey : ofText ('\'' :: cs) =
      key (String.ofList (trim (unquote (trim ('\'' :: cs))))) := by
    apply ofText_of_not_mem
    · rw [Text.trim_cons (by decide)]
      exact Binary64.ofText?_eq_none (by decide) (by decide) _
    · simpa using hcall
  intro heq
  rw [hkey] at heq
  cases hnumeral : Binary64.ofText? (trim cs) with
  | some x =>
    simp only [ofText, hnumeral] at heq
    cases heq
  | none =>
    rw [ofText_of_not_mem hnumeral hcall] at heq
    have hname := String.ofList_injective (key.inj heq)
    -- one quote more on the left, and both sides lose an even number
    have hparity := congrArg (List.count '\'' · % 2) hname
    simp only [Text.count_quote_trim, Text.count_quote_unquote, List.count_cons_self] at hparity
    omega

/-- A text that names a key in quotes just as well as without them. -/
structure IsName (cs : List Char) : Prop where
  /-- It is a single piece. -/
  whole : ({} : Counts).split cs = [cs]
  solid : trim cs ≠ []
  not_numeral : Binary64.ofText? (trim cs) = none
  not_quoted : ∀ ds, trim cs ≠ quoted ds

/-- A name is a key. -/
theorem IsName.ofText {cs : List Char} (h : IsName cs) (hcall : '(' ∉ cs) :
    Segment.ofText cs = key (String.ofList (trim cs)) := by
  rw [ofText_of_not_mem h.not_numeral hcall, Text.unquote_of_not_quoted h.not_quoted,
    Text.trim_trim]

/-- A piece that is a key with and without quotes is a name. -/
theorem isName_of_ofText {cs : List Char} (hwhole : ({} : Counts).split cs = [cs])
    (hsolid : trim cs ≠ []) (h : Segment.ofText cs = key (String.ofList (trim cs))) :
    IsName cs := by
  refine ⟨hwhole, hsolid, ?_, ?_⟩
  · cases hnumeral : Binary64.ofText? (trim cs) with
    | none => rfl
    | some x =>
      simp only [Segment.ofText, hnumeral] at h
      cases h
  · intro ds hds
    rw [← ofText_trim, hds, ofText_quoted] at h
    have hname := congrArg (List.count '\'') (String.ofList_injective (key.inj h))
    rw [Text.count_quote_trim, Text.count_quote_quoted] at hname
    omega

end Segment

/-! ## Cleaning -/

/-- A text as an argument of a call. -/
def Segment.cleaned (s : String) : String := String.ofList (cleanArg s.toList)

namespace Path

theorem pathPieces_of_whole {cs : List Char} (h : ({} : Counts).split cs = [cs])
    (hsolid : trim cs ≠ []) : pathPieces cs = [trim cs] := by
  rw [pathPieces_eq_solid, h, Text.solid_cons, if_neg (by simpa using hsolid), Text.solid_nil]

/-- A text without a cut spells a single segment. -/
theorem ofText_of_whole {cs : List Char} (h : ({} : Counts).split cs = [cs])
    (hsolid : trim cs ≠ []) : ofText (String.ofList cs) = [Segment.ofText cs] := by
  rw [ofText, String.toList_ofList, pathPieces_of_whole h hsolid, List.map_singleton,
    Segment.ofText_trim]

end Path

/-! ## Quotes around a path -/

namespace Counts

theorem eq_of_split_eq_singleton {k : Counts} {cs piece : List Char} (h : k.split cs = [piece]) :
    piece = cs := by
  induction cs generalizing k piece with
  | nil =>
    rw [split] at h
    exact (List.head_eq_of_cons_eq h).symm
  | cons c cs ih =>
    rw [split] at h
    split at h
    · exact absurd (List.tail_eq_of_cons_eq h) ((k.step c).split_ne_nil cs)
    · obtain ⟨first, rest, hsplit⟩ := List.exists_cons_of_ne_nil ((k.step c).split_ne_nil cs)
      rw [hsplit, List.modifyHead_cons, List.cons.injEq] at h
      obtain ⟨hpiece, hrest⟩ := h
      have hfirst : first = cs := ih (by rw [hsplit, hrest])
      rw [← hpiece, hfirst]

/-- Quotes around a text stand in front of its first piece and behind its last one. -/
theorem split_quoted (k : Counts) (cs : List Char) :
    k.split (quoted cs) = ((k.split cs).dropLast ++
      [(k.split cs).getLast (k.split_ne_nil cs) ++ ['\'']]).modifyHead ('\'' :: ·) := by
  have hquote : ∀ j : Counts, j.Calm ['\''] :=
    calm_of_plain (List.forall_mem_singleton.mpr rfl)
  have hfront := (hquote k).split_append (cs ++ ['\''])
  rw [List.singleton_append] at hfront
  rw [quoted, hfront, split_append, (hquote _).1, List.modifyHead_cons]
  rfl

end Counts

namespace Path

/-- A single piece in quotes is a key. -/
theorem ofText_quoted_of_whole {cs : List Char} (h : ({} : Counts).split cs = [cs]) :
    ofText (String.ofList (quoted cs)) = [.key (String.ofList (trim cs))] := by
  have hquoted : ({} : Counts).split (quoted cs) = [quoted cs] := by
    rw [Counts.split_quoted]
    simp [h, quoted]
  have hsolid : trim (quoted cs) ≠ [] := by
    rw [Text.trim_quoted]
    exact List.cons_ne_nil _ _
  rw [ofText_of_whole hquoted hsolid, Segment.ofText_quoted]

/-- A name spells the same path with and without quotes. -/
theorem ofText_of_isName {cs : List Char} (h : Segment.IsName cs) (hcall : '(' ∉ cs) :
    ofText (String.ofList cs) = ofText (String.ofList (quoted cs)) := by
  rw [ofText_of_whole h.whole h.solid, h.ofText hcall, ofText_quoted_of_whole h.whole]

/-- Around several pieces the quotes add a character to the first one, and they leave something of
the first and of the last one, blank or not. -/
theorem ofText_quoted_ne_of_pieces {cs first : List Char} {rest : List (List Char)}
    (hsplit : ({} : Counts).split cs = first :: rest) (hrest : rest ≠ []) (hcall : '(' ∉ cs) :
    ofText (String.ofList cs) ≠ ofText (String.ofList (quoted cs)) := by
  have hlast : rest = rest.dropLast ++ [rest.getLast hrest] :=
    (List.dropLast_concat_getLast hrest).symm
  have hpieces : pathPieces cs =
      solid [first] ++ (solid rest.dropLast ++ solid [rest.getLast hrest]) := by
    rw [pathPieces_eq_solid, hsplit, ← Text.solid_append, ← hlast, ← Text.solid_append]
    rfl
  have hfront : (trim ('\'' :: first)).isEmpty = false :=
    Text.trim_isEmpty_of_mem List.mem_cons_self (by decide)
  have hback : (trim (rest.getLast hrest ++ ['\''])).isEmpty = false :=
    Text.trim_isEmpty_of_mem (List.mem_append_right _ List.mem_cons_self) (by decide)
  have hpieces' : pathPieces (quoted cs) = trim ('\'' :: first) ::
      (solid rest.dropLast ++ [trim (rest.getLast hrest ++ ['\''])]) := by
    rw [pathPieces_eq_solid, Counts.split_quoted]
    simp [hsplit, hrest, List.dropLast_cons_of_ne_nil, List.getLast_cons, Text.solid_cons, hfront,
      hback]
  intro h
  rw [ofText, ofText, String.toList_ofList, String.toList_ofList, hpieces'] at h
  by_cases hblank : trim first = []
  · -- without the quotes the first piece is dropped, with them it is not
    have hshort : (solid [rest.getLast hrest]).length ≤ 1 := by
      rw [Text.solid_cons]
      split <;> simp
    have hlength := congrArg List.length h
    simp only [hpieces, Text.solid_cons, hblank, List.isEmpty_nil, if_true, Text.solid_nil,
      List.nil_append, List.length_map, List.length_cons, List.length_append, List.length_nil]
      at hlength hshort
    omega
  · rw [Text.solid_cons, if_neg (by simpa using hblank), List.cons_append] at hpieces
    have hmem : '(' ∉ first := by
      intro hmem
      have hpiece : trim first ∈ pathPieces cs := by
        rw [hpieces]
        exact List.mem_cons_self
      exact hcall (mem_of_mem_pathPieces hpiece (Text.mem_trim hmem (by decide)))
    rw [hpieces, List.map_cons, List.map_cons] at h
    have hhead := List.head_eq_of_cons_eq h
    rw [Segment.ofText_trim, Segment.ofText_trim] at hhead
    exact Segment.ofText_cons_quote hmem hhead.symm

/-- Quotes around a text leave its path alone exactly if the text is a name. -/
theorem ofText_quoted_eq_iff {cs : List Char} (hcall : '(' ∉ cs) :
    ofText (String.ofList cs) = ofText (String.ofList (quoted cs)) ↔ Segment.IsName cs := by
  refine ⟨fun h => ?_, fun h => ofText_of_isName h hcall⟩
  obtain ⟨first, rest, hsplit⟩ := List.exists_cons_of_ne_nil (({} : Counts).split_ne_nil cs)
  by_cases hrest : rest = []
  · have hwhole : ({} : Counts).split cs = [cs] := by
      rw [hrest] at hsplit
      rw [hsplit, Counts.eq_of_split_eq_singleton hsplit]
    rw [ofText_quoted_of_whole hwhole] at h
    have hsolid : trim cs ≠ [] := by
      intro hblank
      rw [ofText, String.toList_ofList, pathPieces_eq_solid, hwhole, Text.solid_cons, hblank] at h
      cases h
    rw [ofText_of_whole hwhole hsolid] at h
    exact Segment.isName_of_ofText hwhole hsolid (List.head_eq_of_cons_eq h)
  · exact absurd h (ofText_quoted_ne_of_pieces hsplit hrest hcall)

/-- Cleaning leaves alone what a text spells, unless the text stands in quotes that enclose
something else than a name. -/
theorem ofText_cleaned_iff {s : String} (hs : Segment.Clear s) :
    ofText (Segment.cleaned s) = ofText s ↔
      ∀ cs, trim s.toList = quoted cs → Segment.IsName cs := by
  have htrim : ofText s = ofText (String.ofList (trim s.toList)) := by
    rw [ofText_trim, String.ofList_toList]
  by_cases hquoted : ∃ cs, trim s.toList = quoted cs
  · obtain ⟨cs, hcs⟩ := hquoted
    have hcleaned : ofText (Segment.cleaned s) = ofText (String.ofList cs) := by
      rw [Segment.cleaned, Segment.cleanArg, hcs, Text.unquote_quoted, ofText_trim]
    have hcall : '(' ∉ cs := by
      intro hmem
      have hmem' : '(' ∈ trim s.toList := by simp [hcs, quoted, hmem]
      exact absurd (hs _ (Text.mem_of_mem_trim hmem')) (by decide)
    rw [hcleaned, htrim, hcs, ofText_quoted_eq_iff hcall]
    constructor
    · intro h ds hds
      rw [Text.quoted_injective hds] at h
      exact h
    · exact fun h => h cs rfl
  · have hunquote := Text.unquote_of_not_quoted fun cs hcs => hquoted ⟨cs, hcs⟩
    rw [Segment.cleaned, Segment.cleanArg, hunquote, Text.trim_trim, ← htrim]
    exact ⟨fun _ cs hcs => absurd ⟨cs, hcs⟩ hquoted, fun _ => rfl⟩

end Path

/-! ## Arguments of parsed calls -/

/-- What every argument of a parsed call is, however the call was written. -/
structure Segment.IsArgument (arg : String) : Prop where
  ne_empty : arg ≠ ""
  trim_eq : trim arg.toList = arg.toList
  clear : Clear arg

theorem Segment.isArgument_of_mem_callArgs {cs : List Char} {arg : String}
    (h : arg ∈ callArgs cs) : IsArgument arg := by
  have hclear : Clear arg := clear_of_mem_callArgs h
  simp only [callArgs, List.mem_map] at h
  obtain ⟨piece, hpiece, rfl⟩ := h
  obtain ⟨hmem, hsolid⟩ := List.mem_filter.mp (List.mem_of_mem_drop hpiece)
  obtain ⟨token, -, rfl⟩ := List.mem_map.mp hmem
  refine ⟨?_, ?_, hclear⟩
  · intro hempty
    rw [← String.toList_inj, String.toList_ofList] at hempty
    rw [hempty] at hsolid
    cases hsolid
  · rw [String.toList_ofList, cleanArg, Text.trim_trim]

/-- The arguments of all calls of a path are arguments. -/
theorem Path.isArgument_of_mem {text : String} {op : Operator} {args : List String}
    (h : Segment.call op args ∈ ofText text) : ∀ arg ∈ args, Segment.IsArgument arg := by
  obtain ⟨piece, -, hpiece⟩ := List.mem_map.mp h
  rw [Segment.args_eq_callArgs hpiece]
  exact fun _ => Segment.isArgument_of_mem_callArgs

end PathQuery
