import PathQuery.CommandLine
import PathQuery.Proofs.Evaluation.Conservation
import PathQuery.Proofs.Json.ReadBack

/-!
# Runs of the command line

* `CommandLine.Asks`: the arguments ask for a query. Options stand in any order and none of them
  twice, and then the document and the mapping, which may look like options only behind a double
  dash.
* `respond_table`, `respond_path`: with `--table` a run gives the result of `projectJson`, without
  it what the path selects. `Response.ofResult` prints or reports it.
* `output_readable`: what a run prints for a path is read by the next run as the very value that was
  selected, since it is no deeper than the document.
* `ways_agree`: `evaluateJson`, `projectJson` and a run agree on a path text and a document text.
  What is printed determines the value (`ofResult_eq_iff`).
-/

namespace PathQuery

namespace CommandLine

/-- The arguments ask for the query. -/
inductive Asks : List String → Query → Prop where
  | dashed {options : List String} (document mapping : String)
      (known : ∀ option ∈ options, option = "--table" ∨ option = "--compact")
      (once : options.Nodup) :
      Asks (options ++ ["--", document, mapping])
        ⟨document, mapping, options.contains "--table", options.contains "--compact"⟩
  | bare {options : List String} {document mapping : String}
      (known : ∀ option ∈ options, option = "--table" ∨ option = "--compact")
      (once : options.Nodup)
      (document_plain : isOption document = false) (mapping_plain : isOption mapping = false) :
      Asks (options ++ [document, mapping])
        ⟨document, mapping, options.contains "--table", options.contains "--compact"⟩

/-- The document of the query is this text: the argument itself, or what stands on standard input
where the argument is a single dash. -/
def Query.Receives (q : Query) (input : Option String) (text : String) : Prop :=
  (q.document = text ∧ text ≠ "-") ∨ (q.document = "-" ∧ input = some text)

/-- What a run leaves behind that comes to a result. -/
def Response.ofResult (style : JsonStyle) : Except QueryError Value → Response
  | .ok v => { code := 0, output := v.toJson style ++ "\n" }
  | .error e => { code := 1, errors := e.message ++ "\n" }

/-! ## Arguments -/

/-- Options are taken in before anything that follows them. -/
theorem readArguments_options {options : List String}
    (known : ∀ option ∈ options, option = "--table" ∨ option = "--compact")
    (once : options.Nodup) {p : Pending} (htable : p.table = true → "--table" ∉ options)
    (hcompact : p.compact = true → "--compact" ∉ options) (rest : List String) :
    readArguments p (options ++ rest) =
      readArguments ⟨p.operands, p.table || options.contains "--table",
        p.compact || options.contains "--compact"⟩ rest := by
  -- what is pending already must not come again among the options that are left
  induction options generalizing p with
  | nil => simp
  | cons option options ih =>
    rw [List.forall_mem_cons] at known
    rw [List.nodup_cons] at once
    rcases known.1 with rfl | rfl
    · have hfirst : p.table = false := by
        cases hp : p.table with
        | false => rfl
        | true => exact absurd List.mem_cons_self (htable hp)
      have hread : readArguments p ("--table" :: (options ++ rest)) =
          readArguments { p with table := true } (options ++ rest) := by
        rw [readArguments, if_neg (by decide), if_pos (by decide), if_pos rfl, hfirst]
        rfl
      have hmore := ih known.2 once.2 (p := { p with table := true }) (fun _ => once.1)
        fun hp hmem => hcompact hp (List.mem_cons_of_mem _ hmem)
      rw [List.cons_append, hread, hmore]
      simp [hfirst]
    · have hfirst : p.compact = false := by
        cases hp : p.compact with
        | false => rfl
        | true => exact absurd List.mem_cons_self (hcompact hp)
      have hread : readArguments p ("--compact" :: (options ++ rest)) =
          readArguments { p with compact := true } (options ++ rest) := by
        rw [readArguments, if_neg (by decide), if_pos (by decide), if_neg (by decide), if_pos rfl,
          hfirst]
        rfl
      have hmore := ih known.2 once.2 (p := { p with compact := true })
        (fun hp hmem => htable hp (List.mem_cons_of_mem _ hmem)) fun _ => once.1
      rw [List.cons_append, hread, hmore]
      simp [hfirst]

/-- What does not look like an option is an operand. -/
theorem readArguments_plain {p : Pending} {operand : String} (h : isOption operand = false)
    (hroom : p.operands.length < 2) (rest : List String) :
    readArguments p (operand :: rest) =
      readArguments { p with operands := p.operands ++ [operand] } rest := by
  have hdash : operand ≠ "--" := by
    rintro rfl
    exact absurd h (by decide)
  rw [readArguments, if_neg hdash, h, if_neg (by decide), if_pos hroom]

variable {args : List String} {q : Query} {input : Option String} {text : String}

theorem Asks.ofArguments (h : Asks args q) : Request.ofArguments args = .query q := by
  rw [Request.ofArguments]
  cases h with
  | dashed document mapping known once =>
    rw [readArguments_options known once (by simp) (by simp), readArguments, if_pos rfl]
    simp [Pending.finish]
  | bare known once document_plain mapping_plain =>
    rw [readArguments_options known once (by simp) (by simp),
      readArguments_plain document_plain (by simp), readArguments_plain mapping_plain (by simp)]
    simp [readArguments, Pending.finish]

/-! ## Results -/

theorem Query.Receives.documentText (h : q.Receives input text) :
    q.documentText input = .ok text := by
  unfold Query.documentText readsInput
  rcases h with ⟨rfl, hdash⟩ | ⟨hdash, rfl⟩
  · rw [beq_false_of_ne hdash]
    rfl
  · rw [hdash]
    rfl

/-- A run prints or reports its result. -/
theorem respond_of_result (hasks : Asks args q) {result : Except QueryError Value}
    (h : q.result input = result.map (Value.toJson q.style)) :
    respond args input = .ofResult q.style result := by
  rw [respond, hasks.ofArguments, Request.respond, h]
  cases result <;> rfl

/-- With a table, a run is `projectJson`. -/
theorem respond_table (hasks : Asks args q) (htext : q.Receives input text)
    (htable : q.table = true) :
    respond args input = .ofResult q.style (projectJson text q.mapping) := by
  refine respond_of_result hasks ?_
  rw [Query.result, htext.documentText, htable, projectJson]
  simp only [bind, Except.bind]
  cases Value.ofJson text with
  | error e => rfl
  | ok document => cases Mapping.ofJson q.mapping <;> rfl

/-- Without a table, a run follows the path. -/
theorem respond_path (hasks : Asks args q) (htext : q.Receives input text)
    (htable : q.table = false) :
    respond args input = .ofResult q.style
      (((Value.ofJson text).mapError .json).map (evaluate · q.mapping)) := by
  refine respond_of_result hasks ?_
  rw [Query.result, htext.documentText, htable]
  simp only [bind, Except.bind]
  cases Value.ofJson text <;> rfl

end CommandLine

/-! ## One run after another -/

/-- What is selected from a document that has been read can be printed and read again. -/
theorem ofJson_toJson_evaluate {text : String} {document : Value}
    (h : Value.ofJson text = .ok document) (path : String) (style : JsonStyle) :
    Value.ofJson ((evaluate document path).toJson style ++ "\n") =
      .ok (evaluate document path) := by
  have hkeys : (evaluate document path).DistinctKeys := (Value.distinctKeys_ofJson h).evaluate path
  have hdepth : (evaluate document path).depth ≤ document.depth :=
    Value.conserved_depth.evaluate document path
  exact Value.ofJson_toJson hkeys (Nat.le_trans hdepth (Value.depth_ofJson h)) style

open CommandLine

/-- Nothing that a path selects nests deeper than the document. So whatever a run prints for a path
is read back as what the path selects, and a run that takes it for its document answers as if it had
been given that value. -/
theorem output_readable :
    (∀ document path, (evaluate document path).depth ≤ document.depth) ∧
    ∀ text document, Value.ofJson text = .ok document →
      document.depth ≤ Json.maxDepth ∧
      ∀ args q input, Asks args q → q.Receives input text → q.table = false →
        let output := (evaluate document q.mapping).toJson q.style ++ "\n"
        respond args input = { code := 0, output := output, errors := "" } ∧
          Value.ofJson output = .ok (evaluate document q.mapping) ∧
          ∀ args' q', Asks args' q' → q'.document = "-" → q'.table = false →
            respond args' (some output) =
              { code := 0
                output :=
                  (evaluate (evaluate document q.mapping) q'.mapping).toJson q'.style ++ "\n"
                errors := "" } := by
  refine ⟨Value.conserved_depth.evaluate, fun text document h => ⟨Value.depth_ofJson h, ?_⟩⟩
  intro args q input hasks htext htable output
  have hread : Value.ofJson output = .ok (evaluate document q.mapping) :=
    ofJson_toJson_evaluate h q.mapping q.style
  refine ⟨?_, hread, ?_⟩
  · rw [respond_path hasks htext htable, h]
    rfl
  · intro args' q' hasks' hdash htable'
    rw [respond_path hasks' (.inr ⟨hdash, rfl⟩) htable', hread]
    rfl

/-- A first run takes the inner array apart and prints everything on one line; a second one looks
for an element in that line. -/
theorem output_readable_flat :
    let text := "[[1, 2], \x7b\"k\": []\x7d]"
    let document : Value := .arr [
      .arr [.num (.int 1 (by decide)), .num (.int 2 (by decide))], .obj [("k", .arr [])]]
    let flat : Query := ⟨text, "flat()", false, true⟩
    let second : Query := ⟨"-", "[1]", false, false⟩
    let output := "[1,2,\x7b\"k\":[]\x7d]\n"
    Value.ofJson text = .ok document ∧ (evaluate document "flat()").depth ≤ document.depth ∧
      Asks ["--compact", "--", text, "flat()"] flat ∧ flat.Receives none text ∧
      Asks ["-", "[1]"] second ∧
      respond ["--compact", "--", text, "flat()"] none =
        { code := 0, output := output, errors := "" } ∧
      Value.ofJson output = .ok (evaluate document "flat()") ∧
      respond ["-", "[1]"] (some output) = { code := 0, output := "2\n", errors := "" } := by
  intro text document flat second output
  have htext : Value.ofJson text = .ok document := by decide +kernel
  have hflat : Asks ["--compact", "--", text, "flat()"] flat :=
    @Asks.dashed ["--compact"] text "flat()" (by simp) (by simp)
  have hreceives : flat.Receives none text := .inl ⟨rfl, by decide⟩
  have hsecond : Asks ["-", "[1]"] second :=
    @Asks.bare [] "-" "[1]" nofun .nil (by decide) (by decide)
  obtain ⟨hdepth, hreadable⟩ := output_readable
  obtain ⟨-, hruns⟩ := hreadable text document htext
  obtain ⟨hfirst, hread, hnext⟩ := hruns _ flat none hflat hreceives rfl
  have houtput : (evaluate document flat.mapping).toJson flat.style ++ "\n" = output := by
    decide +kernel
  have hanswer : (evaluate (evaluate document flat.mapping) second.mapping).toJson second.style ++
      "\n" = "2\n" := by decide +kernel
  have hlast := hnext _ second hsecond rfl rfl
  rw [houtput] at hfirst hread hlast
  rw [hanswer] at hlast
  exact ⟨htext, hdepth document "flat()", hflat, hreceives, hsecond, hfirst, hread, hlast⟩

/-! ## Agreement -/

variable {text path mapping : String} {document v : Value} {e : JsonError}

/-- A document that is not JSON is reported first. -/
theorem projectJson_of_error (h : Value.ofJson text = .error e) (mapping : String) :
    projectJson text mapping = .error (.json e) := by
  rw [projectJson, h]
  rfl

theorem projectJson_of_str (h : Value.ofJson text = .ok document)
    (hpath : Value.ofJson mapping = .ok (.str path)) :
    projectJson text mapping = .ok (evaluate document path) := by
  rw [projectJson, h, Mapping.ofJson, hpath]
  rfl

theorem distinctKeys_projectJson (h : projectJson text mapping = .ok v) : v.DistinctKeys := by
  unfold projectJson at h
  cases hdocument : Value.ofJson text with
  | error e =>
    rw [hdocument] at h
    cases h
  | ok document =>
    have hkeys := Value.distinctKeys_ofJson hdocument
    rw [hdocument] at h
    -- the document has been read, and what is left depends on the mapping
    change (Mapping.ofJson mapping >>= fun m => pure (document.project m).value) = .ok v at h
    cases hmapping : Mapping.ofJson mapping with
    | error e =>
      rw [hmapping] at h
      cases h
    | ok m =>
      rw [hmapping] at h
      cases h
      exact Value.distinctKeys_project hkeys m

/-- Only one result leads to what a run leaves behind. -/
theorem ofResult_eq_iff {result : Except QueryError Value}
    (hresult : ∀ w, result = .ok w → w.DistinctKeys) (hv : v.DistinctKeys) (style : JsonStyle) :
    Response.ofResult style result = { code := 0, output := v.toJson style ++ "\n", errors := "" } ↔
      result = .ok v := by
  constructor
  · intro h
    cases result with
    | error e => cases congrArg Response.code h
    | ok w =>
      have hprinted : w.toJson style ++ "\n" = v.toJson style ++ "\n" := congrArg Response.output h
      have hjson : w.toJson style = v.toJson style := by
        simpa using hprinted
      rw [Value.toJson_injective (hresult w rfl) hv hjson]
  · rintro rfl
    rfl

/-- However a path text or a mapping text meets a document text, the answer is the same. A document
that is not JSON is the first and only thing that is reported. Otherwise a path gives what it
selects, as it stands or as a JSON string, and a run prints just what `projectJson` gives. -/
theorem ways_agree (text path mapping : String) :
    (∀ e, Value.ofJson text = .error e →
      evaluateJson text path = .null ∧ projectJson text mapping = .error (.json e) ∧
        ∀ args q input, Asks args q → q.Receives input text →
          respond args input =
            { code := 1, output := "", errors := (QueryError.json e).message ++ "\n" }) ∧
    (∀ document, Value.ofJson text = .ok document →
      evaluateJson text path = evaluate document path ∧
        (∀ quoted, Value.ofJson quoted = .ok (.str path) →
          projectJson text quoted = .ok (evaluate document path)) ∧
        ∀ args q input, Asks args q → q.Receives input text →
          (q.table = false ∧ q.mapping = path) ∨
              (q.table = true ∧ Value.ofJson q.mapping = .ok (.str path)) →
            respond args input =
              { code := 0, output := (evaluate document path).toJson q.style ++ "\n"
                errors := "" }) ∧
    ∀ args q input, Asks args q → q.Receives input text → q.table = true → q.mapping = mapping →
      (∀ v, v.DistinctKeys →
        (respond args input = { code := 0, output := v.toJson q.style ++ "\n", errors := "" } ↔
          projectJson text mapping = .ok v)) ∧
      ∀ e, projectJson text mapping = .error e →
        respond args input = { code := 1, output := "", errors := e.message ++ "\n" } := by
  refine ⟨?_, ?_, ?_⟩
  · -- every way reads the document first
    intro e herror
    refine ⟨?_, projectJson_of_error herror mapping, ?_⟩
    · rw [evaluateJson, herror]
    · intro args q input hasks htext
      cases htable : q.table with
      | true =>
        rw [respond_table hasks htext htable, projectJson_of_error herror]
        rfl
      | false =>
        rw [respond_path hasks htext htable, herror]
        rfl
  · intro document hdocument
    refine ⟨?_, fun quoted hquoted => projectJson_of_str hdocument hquoted, ?_⟩
    · rw [evaluateJson, hdocument]
    · rintro args q input hasks htext (⟨htable, hmapping⟩ | ⟨htable, hmapping⟩)
      · rw [respond_path hasks htext htable, hdocument, hmapping]
        rfl
      · rw [respond_table hasks htext htable, projectJson_of_str hdocument hmapping]
        rfl
  · -- a run shows what it prints, which is enough to tell the result
    rintro args q input hasks htext htable rfl
    have hrun := respond_table hasks htext htable
    refine ⟨fun v hv => ?_, fun e herror => ?_⟩
    · rw [hrun]
      exact ofResult_eq_iff (fun w => distinctKeys_projectJson) hv q.style
    · rw [hrun, herror]
      rfl

/-- The document is missed first where the mapping is no better. An escaped letter in the path does
not matter. What is printed for a table tells what is projected. -/
theorem ways_agree_table :
    let cut := "[7,"
    let e : JsonError := ⟨.endOfValue, 1, 3⟩
    let text := "\x7b\"a\": [7]\x7d"
    let document : Value := .obj [("a", .arr [.num (.int 7 (by decide))])]
    let quoted := "\"\\u0061[0]\""
    let rows := "\x7b\"first\": \"a[0]\"\x7d"
    let table : Value := .obj [("first", .num (.int 7 (by decide)))]
    Value.ofJson cut = .error e ∧ Asks ["--table", "-", cut] ⟨"-", cut, true, false⟩ ∧
      respond ["--table", "-", cut] (some cut) = { code := 1, output := "", errors :=
        "invalid json: EOF while parsing a value at line 1 column 3\n" } ∧
      Value.ofJson text = .ok document ∧ Value.ofJson quoted = .ok (.str "a[0]") ∧
      projectJson text quoted = .ok (evaluate document "a[0]") ∧
      Asks ["--table", "--", text, quoted] ⟨text, quoted, true, false⟩ ∧
      respond ["--table", "--", text, quoted] none = { code := 0, output := "7\n", errors := "" } ∧
      table.DistinctKeys ∧
      Asks ["--table", "--compact", "--", text, rows] ⟨text, rows, true, true⟩ ∧
      projectJson text rows = .ok table := by
  intro cut e text document quoted rows table
  have hcut : Value.ofJson cut = .error e := by decide +kernel
  have htext : Value.ofJson text = .ok document := by decide +kernel
  have hquoted : Value.ofJson quoted = .ok (.str "a[0]") := by decide +kernel
  have hkeys : table.DistinctKeys := by
    rw [Value.distinctKeys_obj]
    simp [Fields.Distinct, Fields.keys, Value.DistinctKeys]
  have haskcut : Asks ["--table", "-", cut] ⟨"-", cut, true, false⟩ :=
    @Asks.bare ["--table"] "-" cut (by simp) (by simp) (by decide) (by decide)
  have haskquoted : Asks ["--table", "--", text, quoted] ⟨text, quoted, true, false⟩ :=
    @Asks.dashed ["--table"] text quoted (by simp) (by simp)
  have haskrows : Asks ["--table", "--compact", "--", text, rows] ⟨text, rows, true, true⟩ :=
    @Asks.dashed ["--table", "--compact"] text rows (by simp) (by simp)
  obtain ⟨-, -, hreport⟩ := (ways_agree cut "a[0]" cut).1 e hcut
  have hfailed := hreport _ _ (some cut) haskcut (.inr ⟨rfl, rfl⟩)
  obtain ⟨hprojected, hrows⟩ := (ways_agree text "a[0]" rows).2
  obtain ⟨-, hproject, hprint⟩ := hprojected document htext
  have hprinted := hprint _ _ none haskquoted (.inl ⟨rfl, by decide⟩) (.inr ⟨rfl, hquoted⟩)
  obtain ⟨hiff, -⟩ := hrows _ _ none haskrows (.inl ⟨rfl, by decide⟩) rfl rfl
  have hmessage : (QueryError.json e).message ++ "\n" =
      "invalid json: EOF while parsing a value at line 1 column 3\n" := by decide +kernel
  have hseven : (evaluate document "a[0]").toJson .pretty ++ "\n" = "7\n" := by decide +kernel
  have htable : respond ["--table", "--compact", "--", text, rows] none =
      { code := 0, output := table.toJson .compact ++ "\n", errors := "" } := by decide +kernel
  rw [hmessage] at hfailed
  exact ⟨hcut, haskcut, hfailed, htext, hquoted, hproject quoted hquoted, haskquoted,
    hprinted.trans (congrArg (Response.mk 0 · "") hseven), hkeys, haskrows,
    (hiff table hkeys).mp htable⟩

end PathQuery
