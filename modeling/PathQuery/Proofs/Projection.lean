import PathQuery.Projection
import PathQuery.Proofs.Json.Objects
import PathQuery.Proofs.Json.TableText

/-!
# Projecting through a table

* `project_rows`: a table that is put together from rows has every path followed, and the results
  are collapsed. A table that is read from a JSON object has lost the repetitions before. Both give
  the keys in the order in which they first come, each with what its last path selects.
* `Mapping.readings_agree`: `Mapping.ofJson` looks for the end of the text before it looks at the
  shape of the value, and `Mapping.decode` the other way round. They accept the same mappings and
  report the same errors, unless the shape and the end are both wrong (`OtherThenMore`).
-/

namespace PathQuery

/-! ## Tables -/

open Json (TableText)

/-- The paths of the rows are followed, and the results are inserted one after the other. -/
theorem Value.project_table (document : Value) (rows : List (String × String)) :
    (document.project (.table rows)).value =
      .obj (Fields.ofPairs (Fields.mapValues (evaluate document) rows)) := by
  rw [project, Traced.value_bind, Traced.value_collect]
  rfl

namespace Mapping

theorem rows?_str (rows : List (String × String)) :
    rows? (Fields.mapValues .str rows) = some rows := by
  induction rows with
  | nil => rfl
  | cons row rows ih =>
    have hrows : rows? (Fields.mapValues .str (row :: rows)) =
        (rows? (Fields.mapValues .str rows)).map (row :: ·) := rfl
    rw [hrows, ih]
    rfl

/-- A table that is read from text has collapsed its rows. -/
theorem ofJson_tableText (t : TableText) :
    ofJson t.text = .ok (.table (Fields.ofPairs t.rows)) := by
  rw [ofJson, t.ofJson_text]
  show ofValue _ = _
  rw [ofValue, ofValue?, Fields.ofPairs_mapValues, rows?_str]
  rfl

end Mapping

/-- Projecting through a table gives an object. Its keys are those of the rows, in the order in
which they first come, and each has what the path of its last row selects. Written as a JSON object,
with strings and blanks as one likes, the rows give the very same object. Any rows can be so
written. -/
theorem project_rows (document : Value) :
    (∀ rows : List (String × String), ∃ fields,
      (document.project (.table rows)).value = .obj fields ∧
        Fields.keys fields = (rows.map Prod.fst).eraseDups ∧
        ∀ key, Fields.get? key fields =
          (rows.findRev? (·.1 = key)).map fun row => evaluate document row.2) ∧
    (∀ t : TableText, ∃ mapping, Mapping.ofJson t.text = .ok mapping ∧
      (document.project mapping).value = (document.project (.table t.rows)).value) ∧
    ∀ rows : List (String × String), ∃ t : TableText, t.rows = rows ∧
      t.text = (Value.obj (rows.map fun row => (row.1, .str row.2))).toJson .compact := by
  refine ⟨?_, ?_, fun rows => ⟨.plain rows, TableText.plain_text rows⟩⟩
  · intro rows
    refine ⟨_, document.project_table rows, ?_, ?_⟩
    · rw [Fields.ofPairs_mapValues, Fields.keys_mapValues, Fields.keys_ofPairs]
    · intro key
      rw [Fields.ofPairs_mapValues, Fields.get?_mapValues, Fields.get?_ofPairs, Option.map_map]
      rfl
  · intro t
    refine ⟨_, Mapping.ofJson_tableText t, ?_⟩
    rw [Value.project_table, Value.project_table, Fields.ofPairs_mapValues_ofPairs]

/-- The key that comes again keeps its place and takes the later path. -/
example : ((Value.obj [("x", .str "u"), ("y", .str "v")]).project
    (.table [("b", "x"), ("a", "x"), ("b", "y")])).value =
      .obj [("b", .str "v"), ("a", .str "u")] := by decide +kernel

namespace Mapping

variable {text : String} {v : Value} {m : Mapping} {rest : List Char}

/-! ## Two ways to read a mapping -/

/-- Nothing but strings makes a table. -/
theorem rows?_eq_some_iff {fields : List (String × Value)} {rows : List (String × String)} :
    rows? fields = some rows ↔ fields = Fields.mapValues .str rows := by
  constructor
  · intro h
    induction fields generalizing rows with
    | nil =>
      cases h
      rfl
    | cons field fields ih =>
      obtain ⟨key, v⟩ := field
      cases v with
      | str path =>
        obtain ⟨others, hothers, hrows⟩ := Option.map_eq_some_iff.mp h
        rw [ih hothers, ← hrows]
        rfl
      | null | bool | num | arr | obj => cases h
  · rintro rfl
    exact rows?_str rows

/-- A mapping is a string or an object of strings. -/
theorem ofValue?_eq_some_iff :
    ofValue? v = some m ↔ (∃ path, v = .str path ∧ m = .path path) ∨
      ∃ rows, v = .obj (Fields.mapValues .str rows) ∧ m = .table rows := by
  cases v with
  | str path => simp [ofValue?, eq_comm]
  | obj fields =>
    rw [ofValue?, Option.map_eq_some_iff]
    constructor
    · rintro ⟨rows, hrows, rfl⟩
      exact .inr ⟨rows, congrArg Value.obj (rows?_eq_some_iff.mp hrows), rfl⟩
    · rintro (⟨path, hpath, -⟩ | ⟨rows, hfields, rfl⟩)
      · cases hpath
      · exact ⟨rows, rows?_eq_some_iff.mpr (Value.obj.inj hfields), rfl⟩
  | null | bool | num | arr => simp [ofValue?]

/-- Neither a path nor an object of paths. -/
def OtherShape (v : Value) : Prop :=
  (∀ path, v ≠ .str path) ∧ ∀ rows : List (String × String), v ≠ .obj (Fields.mapValues .str rows)

theorem ofValue?_eq_none_iff : ofValue? v = none ↔ OtherShape v := by
  simp only [Option.eq_none_iff_forall_ne_some, ne_eq, ofValue?_eq_some_iff, OtherShape]
  constructor
  · intro h
    exact ⟨fun path hv => h (.path path) (.inl ⟨path, hv, rfl⟩),
      fun rows hv => h (.table rows) (.inr ⟨rows, hv, rfl⟩)⟩
  · rintro ⟨hpath, htable⟩ m (⟨path, hv, -⟩ | ⟨rows, hv, -⟩)
    · exact hpath path hv
    · exact htable rows hv

theorem ofValue_eq_ok_iff : ofValue v = .ok m ↔ ofValue? v = some m := by
  rw [ofValue]
  cases ofValue? v <;> simp

/-- A fault as it is reported. -/
def located (text : String) (fault : JsonFault) : QueryError := .json (fault.locate text.toList)

theorem ofJson_of_fault {fault : JsonFault} (h : Json.readDocument text.toList = .error fault) :
    ofJson text = .error (located text fault) := by
  rw [ofJson, Value.ofJson, h]
  rfl

theorem decode_of_fault {fault : JsonFault} (h : Json.readDocument text.toList = .error fault) :
    decode text = .error (located text fault) := by
  rw [decode, h]
  rfl

/-- `Mapping.ofJson` looks for the end of the text first. -/
theorem ofJson_of_read (h : Json.readDocument text.toList = .ok (v, rest)) :
    ofJson text = ((Json.readEnd rest).mapError (located text)).bind fun _ => ofValue v := by
  rw [ofJson, Value.ofJson, h]
  simp only [bind, Except.bind]
  cases Json.readEnd rest <;> rfl

/-- `Mapping.decode` looks at the shape first. -/
theorem decode_of_read (h : Json.readDocument text.toList = .ok (v, rest)) :
    decode text =
      (ofValue v).bind fun m => ((Json.readEnd rest).mapError (located text)).map fun _ => m := by
  rw [decode, h]
  rfl

theorem readEnd_of_blank (h : Json.skipBlanks rest = []) : Json.readEnd rest = .ok () := by
  rw [Json.readEnd, h]

theorem readEnd_of_more (h : Json.skipBlanks rest ≠ []) :
    Json.readEnd rest = .error (.on .trailingCharacters (Json.skipBlanks rest)) := by
  rw [Json.readEnd]
  split
  · rename_i hblank
    exact absurd hblank h
  · rfl

/-! ## Where both are wrong -/

/-- The text begins with a value that is not a mapping, and there is more behind it. -/
def OtherThenMore (text : String) : Prop :=
  ∃ v rest, Json.readDocument text.toList = .ok (v, rest) ∧ OtherShape v ∧
    Json.skipBlanks rest ≠ []

/-- Where both are wrong, each reports what it sees first. -/
theorem errors_of_otherThenMore (h : OtherThenMore text) :
    (∃ e, ofJson text = .error (.json e) ∧ e.cause = .trailingCharacters) ∧
      decode text = .error .shape := by
  obtain ⟨v, rest, hread, hshape, hmore⟩ := h
  have hvalue : ofValue v = .error .shape := by
    rw [ofValue, ofValue?_eq_none_iff.mpr hshape]
    rfl
  rw [ofJson_of_read hread, decode_of_read hread, readEnd_of_more hmore, hvalue]
  exact ⟨⟨_, rfl, rfl⟩, rfl⟩

/-- Where at most one is wrong, both say the same. -/
theorem decode_eq_ofJson (h : ¬ OtherThenMore text) : decode text = ofJson text := by
  cases hread : Json.readDocument text.toList with
  | error fault => rw [decode_of_fault hread, ofJson_of_fault hread]
  | ok read =>
    obtain ⟨v, rest⟩ := read
    rw [decode_of_read hread, ofJson_of_read hread]
    by_cases hend : Json.skipBlanks rest = []
    · rw [readEnd_of_blank hend]
      cases ofValue v <;> rfl
    · -- there is more behind the value, so its shape is right
      have hshape : ofValue? v ≠ none := fun hnone =>
        h ⟨v, rest, hread, ofValue?_eq_none_iff.mp hnone, hend⟩
      obtain ⟨m, hm⟩ := Option.ne_none_iff_exists'.mp hshape
      rw [readEnd_of_more hend, ofValue_eq_ok_iff.mpr hm]
      rfl

theorem ofJson_eq_ok_iff_decode : ofJson text = .ok m ↔ decode text = .ok m := by
  by_cases h : OtherThenMore text
  · obtain ⟨⟨e, hjson, -⟩, hdecode⟩ := errors_of_otherThenMore h
    rw [hjson, hdecode]
    exact ⟨nofun, nofun⟩
  · rw [decode_eq_ofJson h]

/-- An error of either kind, and how its message begins. -/
theorem message_of_ofJson {e : QueryError} (h : ofJson text = .error e) :
    (∃ f, e = .json f ∧ e.message = "invalid json: " ++ e.detail) ∨
      e = .shape ∧ e.message = e.detail := by
  rw [ofJson] at h
  cases hread : Value.ofJson text with
  | error f =>
    rw [hread] at h
    cases h
    exact .inl ⟨f, rfl, rfl⟩
  | ok v =>
    rw [hread] at h
    have hvalue : (ofValue? v).elim (Except.error .shape) .ok = .error e := h
    cases hv : ofValue? v with
    | none =>
      rw [hv] at hvalue
      cases hvalue
      exact .inr ⟨rfl, rfl⟩
    | some m =>
      rw [hv] at hvalue
      cases hvalue

/-! ## What is accepted -/

/-- A text is a mapping if it is read as a string or an object of strings. -/
theorem ofJson_eq_ok_iff :
    ofJson text = .ok m ↔ (∃ path, Value.ofJson text = .ok (.str path) ∧ m = .path path) ∨
      ∃ rows, Value.ofJson text = .ok (.obj (Fields.mapValues .str rows)) ∧ m = .table rows := by
  rw [ofJson, bind_eq_ok_iff]
  simp only [mapError_eq_ok_iff, ofValue_eq_ok_iff, ofValue?_eq_some_iff]
  constructor
  · rintro ⟨v, hread, ⟨path, rfl, hm⟩ | ⟨rows, rfl, hm⟩⟩
    · exact .inl ⟨path, hread, hm⟩
    · exact .inr ⟨rows, hread, hm⟩
  · rintro (⟨path, hread, hm⟩ | ⟨rows, hread, hm⟩)
    · exact ⟨_, hread, .inl ⟨path, rfl, hm⟩⟩
    · exact ⟨_, hread, .inr ⟨rows, rfl, hm⟩⟩

/-- The path that a text is, or the table that the pairs of an object text give. -/
theorem ofJson_eq_ok_iff_text :
    ofJson text = .ok m ↔
      (∃ path, Value.ofJson text = .ok (.str path) ∧ m = .path path) ∨
        ∃ pairs, Json.IsObject text pairs ∧ ∃ pathOf : String → String,
          (∀ key ∈ pairs.map Prod.fst,
            (pairs.findRev? (·.1 = key)).map Prod.snd = some (.str (pathOf key))) ∧
          m = .table ((pairs.map Prod.fst).eraseDups.map fun key => (key, pathOf key)) := by
  rw [ofJson_eq_ok_iff]
  refine or_congr Iff.rfl ?_
  simp only [Value.ofJson_obj_iff, eq_comm (a := Fields.mapValues _ _)]
  constructor
  · rintro ⟨rows, ⟨pairs, hpairs, hrows⟩, rfl⟩
    obtain ⟨pathOf, hlast, hkeys⟩ := (Fields.ofPairs_eq_mapValues_iff _).mp hrows
    exact ⟨pairs, hpairs, pathOf, hlast, congrArg table hkeys⟩
  · rintro ⟨pairs, hpairs, pathOf, hlast, rfl⟩
    exact ⟨_, ⟨pairs, hpairs, (Fields.ofPairs_eq_mapValues_iff _).mpr ⟨pathOf, hlast, rfl⟩⟩, rfl⟩

/-- Both ways of reading accept the same texts as the same mappings: a string as a path, and an
object whose keys all have a string as their last value as a table of these, in the order in which
the keys first come. Otherwise they report the same error, and one of them says in front where it
comes from. Only where a value of another shape has more behind it, one reports the rest and the
other the shape. -/
theorem readings_agree (text : String) :
    (∀ m, ofJson text = .ok m ↔ decode text = .ok m) ∧
    (∀ m, ofJson text = .ok m ↔
      (∃ path, Value.ofJson text = .ok (.str path) ∧ m = .path path) ∨
        ∃ pairs, Json.IsObject text pairs ∧ ∃ pathOf : String → String,
          (∀ key ∈ pairs.map Prod.fst,
            (pairs.findRev? (·.1 = key)).map Prod.snd = some (.str (pathOf key))) ∧
          m = .table ((pairs.map Prod.fst).eraseDups.map fun key => (key, pathOf key))) ∧
    (OtherThenMore text →
      (∃ e, ofJson text = .error (.json e) ∧ e.cause = .trailingCharacters) ∧
        decode text = .error .shape) ∧
    (¬ OtherThenMore text → ∀ e, ofJson text = .error e →
      decode text = .error e ∧
        ((∃ f, e = .json f ∧ e.message = "invalid json: " ++ e.detail) ∨
          e = .shape ∧ e.message = e.detail)) := by
  refine ⟨fun m => ofJson_eq_ok_iff_decode, fun m => ofJson_eq_ok_iff_text,
    errors_of_otherThenMore, fun hother e herror => ?_⟩
  have hdecode : decode text = .error e := (decode_eq_ofJson hother).trans herror
  exact ⟨hdecode, message_of_ofJson herror⟩

/-- A key whose first value is no path, a value of another shape with and without more behind it,
and a text that is not JSON. -/
theorem readings_agree_irregular :
    let repeated := "\x7b\"a\": 1, \"b\": \"x\", \"a\": \"y\"\x7d"
    (ofJson repeated = .ok (.table [("a", "y"), ("b", "x")]) ∧
      decode repeated = .ok (.table [("a", "y"), ("b", "x")])) ∧
    (OtherThenMore "[1] x" ∧ (∃ e, ofJson "[1] x" = .error (.json e) ∧
      e.cause = .trailingCharacters) ∧ decode "[1] x" = .error .shape) ∧
    (¬ OtherThenMore "[1]" ∧ ofJson "[1]" = .error .shape ∧ decode "[1]" = .error .shape) ∧
    ¬ OtherThenMore "[1" ∧ ∃ e, ofJson "[1" = .error e ∧ decode "[1" = .error e := by
  have htable : ofJson "\x7b\"a\": 1, \"b\": \"x\", \"a\": \"y\"\x7d" =
      .ok (.table [("a", "y"), ("b", "x")]) := by decide +kernel
  have hmore : OtherThenMore "[1] x" :=
    ⟨.arr [.num (.int 1 (by decide))], [' ', 'x'], rfl, ⟨nofun, nofun⟩, nofun⟩
  have hblank : ¬ OtherThenMore "[1]" := by
    rintro ⟨v, rest, hread, -, hmore⟩
    have hrest : Json.readDocument "[1]".toList = .ok (.arr [.num (.int 1 (by decide))], []) := rfl
    rw [hrest] at hread
    cases hread
    exact hmore rfl
  have hfault : ¬ OtherThenMore "[1" := by
    rintro ⟨v, rest, hread, -⟩
    cases hread
  have hshape : ofJson "[1]" = .error .shape := rfl
  have hjson : ofJson "[1" = .error (.json ⟨.endOfList, 1, 2⟩) := rfl
  exact ⟨⟨htable, ((readings_agree _).1 _).mp htable⟩,
    ⟨hmore, (readings_agree _).2.2.1 hmore⟩,
    ⟨hblank, hshape, ((readings_agree _).2.2.2 hblank _ hshape).1⟩,
    hfault, _, hjson, ((readings_agree _).2.2.2 hfault _ hjson).1⟩

end Mapping

end PathQuery
