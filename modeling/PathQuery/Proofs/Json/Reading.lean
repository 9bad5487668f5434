import PathQuery.Json.Reader
import PathQuery.Proofs.Json.Parts

/-!
# What reading gives

* `Json.readValue_yields`: a property that passes from what stands in a container to the container
  (`Json.BuiltUp`) holds of every value that is read. It may depend on how many more containers may
  be opened.
* `Value.ofJson_eq_ok_iff`: a text is a value if the value is at its start and only blanks follow.
* `Value.depth` counts the containers inside each other. What is read is within the limit of the
  reader (`Value.depth_ofJson`); the writer has none.
* `Value.distinctKeys_ofJson`: no object in what is read has a key twice.
-/

namespace PathQuery

namespace Json

/-- Whatever is read has the property. What is left does not matter. -/
def Yields {α : Type} (P : α → Prop) (outcome : Outcome α) : Prop :=
  ∀ a rest, outcome = .ok (a, rest) → P a

section

variable {α β : Type} {P : α → Prop}

theorem yields_error (fault : JsonFault) : Yields P (.error fault) := nofun

theorem yields_ok {a : α} (h : P a) (rest : List Char) : Yields P (.ok (a, rest)) := by
  rintro _ _ ⟨⟩
  exact h

/-- A step of the reader goes on only with what an earlier one has given. -/
theorem yields_bind {step : Except JsonFault β} {next : β → Except JsonFault (α × List Char)}
    (h : ∀ b, step = .ok b → Yields P (next b)) : Yields P (step.bind next) := by
  cases step with
  | error fault => exact yields_error fault
  | ok b => exact h b rfl

theorem yields_map {step : Outcome β} {f : β × List Char → α × List Char}
    (h : ∀ b rest, step = .ok (b, rest) → P (f (b, rest)).1) : Yields P (step.map f) := by
  cases step with
  | error fault => exact yields_error fault
  | ok read => exact yields_ok (h read.1 read.2 rfl) _

end

/-! ## Words and containers -/

section

variable {P : Value → Prop} {readItem : List Char → Outcome Value}

theorem readWord_yields {v : Value} (hv : P v) (expected cs : List Char) :
    Yields P (readWord v expected cs) := by
  induction expected generalizing cs with
  | nil => exact yields_ok hv cs
  | cons e expected ih =>
    cases cs with
    | nil => exact yields_error _
    | cons c rest =>
      rw [readWord]
      split
      · exact ih rest
      · exact yields_error _

/-- The elements of an array are read one by one. -/
theorem readItems_yields (hitem : ∀ cs, Yields P (readItem cs)) (bound cs : List Char) :
    Yields (fun items => ∀ v ∈ items, P v) (readItems readItem bound cs) := by
  induction bound generalizing cs with
  | nil => exact yields_error _
  | cons _ bound ih =>
    rw [readItems]
    apply yields_bind
    rintro ⟨v, cs'⟩ hv
    have hfirst : P v := hitem cs v cs' hv
    dsimp only
    split
    · exact yields_error _
    · exact yields_ok (List.forall_mem_singleton.mpr hfirst) _
    · split
      · exact yields_error _
      · apply yields_bind
        rintro ⟨more, rest⟩ hmore
        exact yields_ok (List.forall_mem_cons.mpr ⟨hfirst, ih _ more rest hmore⟩) _
    · exact yields_error _

/-- The fields of an object are read one by one. -/
theorem readFields_yields (hitem : ∀ cs, Yields P (readItem cs)) (bound cs : List Char) :
    Yields (fun pairs => ∀ pair ∈ pairs, P pair.2) (readFields readItem bound cs) := by
  induction bound generalizing cs with
  | nil => exact yields_error _
  | cons _ bound ih =>
    rw [readFields]
    -- nothing is asked of the key and of the colon
    apply yields_bind
    rintro ⟨key, behindKey⟩ -
    apply yields_bind
    rintro behindColon -
    apply yields_bind
    rintro ⟨v, cs'⟩ hv
    have hfirst : P v := hitem _ v cs' hv
    dsimp only
    split
    · exact yields_error _
    · refine yields_ok ?_ _
      rw [List.forall_mem_singleton]
      exact hfirst
    · split
      · exact yields_error _
      · apply yields_bind
        rintro ⟨more, rest⟩ hmore
        refine yields_ok ?_ _
        rw [List.forall_mem_cons]
        exact ⟨hfirst, ih _ more rest hmore⟩
      · exact yields_error _
      · exact yields_error _
    · exact yields_error _

end

/-! ## Values -/

/-- What passes from the inside of a container to the container. The number says how many containers
may be opened around the value; where it is zero, there is none. -/
structure BuiltUp (P : Nat → Value → Prop) : Prop where
  null : ∀ depth, P depth .null
  bool : ∀ depth b, P depth (.bool b)
  num : ∀ depth n, P depth (.num n)
  str : ∀ depth s, P depth (.str s)
  arr : ∀ depth items, (∀ v ∈ items, P depth v) → P (depth + 1) (.arr items)
  obj : ∀ depth fields, Fields.Distinct fields → (∀ field ∈ fields, P depth field.2) →
    P (depth + 1) (.obj fields)

variable {P : Nat → Value → Prop} {depth : Nat} {readItem : List Char → Outcome Value}

/-- An array is built up from elements. -/
theorem readArray_yields (hP : BuiltUp P) (hitem : ∀ cs, Yields (P depth) (readItem cs))
    (cs : List Char) : Yields (P (depth + 1)) (readArray readItem cs) := by
  unfold readArray
  split
  · exact yields_error _
  · exact yields_ok (hP.arr depth [] nofun) _
  · apply yields_map
    intro items rest hitems
    exact hP.arr depth items (readItems_yields hitem _ _ items rest hitems)

/-- An object is built up from fields, of which inserting keeps one for each key. -/
theorem readObject_yields (hP : BuiltUp P) (hitem : ∀ cs, Yields (P depth) (readItem cs))
    (cs : List Char) : Yields (P (depth + 1)) (readObject readItem cs) := by
  unfold readObject
  split
  · exact yields_error _
  · exact yields_ok (hP.obj depth [] List.nodup_nil nofun) _
  · apply yields_map
    intro pairs rest hpairs
    have hvalues := readFields_yields hitem _ _ pairs rest hpairs
    exact hP.obj depth _ (Fields.distinct_ofPairs pairs) (Fields.forall_mem_ofPairs hvalues)
  · exact yields_error _

/-- A value is a scalar or a container, if there may be one. -/
theorem readValueWith_yields (hP : BuiltUp P) {readItem? : Option (List Char → Outcome Value)}
    (hcontainer : ∀ readItem ∈ readItem?, ∀ cs,
      Yields (P depth) (readArray readItem cs) ∧ Yields (P depth) (readObject readItem cs))
    (cs : List Char) : Yields (P depth) (readValueWith readItem? cs) := by
  unfold readValueWith
  split
  · exact yields_error _
  · exact readWord_yields (hP.null depth) _ _
  · exact readWord_yields (hP.bool depth true) _ _
  · exact readWord_yields (hP.bool depth false) _ _
  · exact yields_map fun s _ _ => hP.str depth s
  · exact yields_map fun n _ _ => hP.num depth n
  · split
    · exact (hcontainer _ rfl _).1
    · exact yields_error _
  · split
    · exact (hcontainer _ rfl _).2
    · exact yields_error _
  · split
    · exact yields_map fun n _ _ => hP.num depth n
    · exact yields_error _

/-- A property that is built up holds of every value that is read, by induction on the number of
containers that may be opened. -/
theorem readValue_yields (hP : BuiltUp P) (depth : Nat) (cs : List Char) :
    Yields (P depth) (readValue depth cs) := by
  induction depth generalizing cs with
  | zero => exact readValueWith_yields hP (by simp) cs
  | succ depth ih =>
    refine readValueWith_yields hP ?_ cs
    rintro _ ⟨⟩ behind
    exact ⟨readArray_yields hP ih behind, readObject_yields hP ih behind⟩

end Json

/-! ## Whole texts -/

/-- A change of the error leaves a success as it is. -/
theorem mapError_eq_ok_iff {α ε ε' : Type} {result : Except ε α} {f : ε → ε'} {a : α} :
    result.mapError f = .ok a ↔ result = .ok a := by
  cases result with
  | error e => exact ⟨nofun, nofun⟩
  | ok b =>
    constructor
    · rintro ⟨⟩
      rfl
    · rintro ⟨⟩
      rfl

/-- Two steps succeed if the first one does, and then the second one on what it gives. -/
theorem bind_eq_ok_iff {α β ε : Type} {step : Except ε α} {next : α → Except ε β} {b : β} :
    step.bind next = .ok b ↔ ∃ a, step = .ok a ∧ next a = .ok b := by
  cases step with
  | error e => exact ⟨nofun, nofun⟩
  | ok a =>
    constructor
    · exact fun h => ⟨a, rfl, h⟩
    · rintro ⟨_, ⟨⟩, h⟩
      exact h

/-- A text is a value if that value is at its start and only blanks follow. -/
theorem Value.ofJson_eq_ok_iff {text : String} {v : Value} :
    ofJson text = .ok v ↔
      ∃ rest, Json.readDocument text.toList = .ok (v, rest) ∧ Json.skipBlanks rest = [] := by
  unfold ofJson
  rw [mapError_eq_ok_iff]
  cases hread : Json.readDocument text.toList with
  | error fault => simp [bind, Except.bind]
  | ok read =>
    obtain ⟨w, rest⟩ := read
    cases hend : Json.skipBlanks rest with
    | nil => simp [bind, Except.bind, Json.readEnd, hend, pure, Except.pure, and_assoc]
    | cons c behind => simp [bind, Except.bind, Json.readEnd, hend]

instance (text : String) (outcome : Except JsonError Value) :
    Decidable (Value.ofJson text = outcome) :=
  match Value.ofJson text, outcome with
  | .ok v, .ok w => decidable_of_iff (v = w) (by simp)
  | .error e, .error f => decidable_of_iff (e = f) (by simp)
  | .ok _, .error _ => isFalse nofun
  | .error _, .ok _ => isFalse nofun

/-- A property that is built up holds of a value that is read from a whole text. -/
theorem Json.BuiltUp.ofJson {P : Nat → Value → Prop} (hP : Json.BuiltUp P) {text : String}
    {v : Value} (h : Value.ofJson text = .ok v) : P Json.maxDepth v := by
  obtain ⟨rest, hread, -⟩ := Value.ofJson_eq_ok_iff.mp h
  exact Json.readValue_yields hP Json.maxDepth _ v rest hread

/-! ## Depth -/

namespace Value

mutual
/-- How many containers stand inside each other in the value, at most. -/
def depth : Value → Nat
  | arr items => depthItems items + 1
  | obj fields => depthFields fields + 1
  | _ => 0

def depthItems : List Value → Nat
  | [] => 0
  | v :: rest => max (depth v) (depthItems rest)

def depthFields : List (String × Value) → Nat
  | [] => 0
  | (_, v) :: rest => max (depth v) (depthFields rest)
end

@[simp] theorem depth_null : null.depth = 0 := by rw [depth] <;> exact nofun
@[simp] theorem depth_bool (b : Bool) : (bool b).depth = 0 := by rw [depth] <;> exact nofun
@[simp] theorem depth_num (n : Number) : (num n).depth = 0 := by rw [depth] <;> exact nofun
@[simp] theorem depth_str (s : String) : (str s).depth = 0 := by rw [depth] <;> exact nofun

theorem depthItems_le {items : List Value} {n : Nat} :
    depthItems items ≤ n ↔ ∀ v ∈ items, v.depth ≤ n := by
  induction items with
  | nil => simp [depthItems]
  | cons v rest ih => rw [depthItems, Nat.max_le, ih, List.forall_mem_cons]

theorem depthFields_le {fields : List (String × Value)} {n : Nat} :
    depthFields fields ≤ n ↔ ∀ field ∈ fields, field.2.depth ≤ n := by
  induction fields with
  | nil => simp [depthFields]
  | cons field rest ih => rw [depthFields, Nat.max_le, ih, List.forall_mem_cons]

/-- An array is one container around its elements. -/
theorem depth_arr_le {items : List Value} {n : Nat} :
    (arr items).depth ≤ n + 1 ↔ ∀ v ∈ items, v.depth ≤ n := by
  rw [depth, Nat.add_le_add_iff_right, depthItems_le]

/-- An object is one container around its fields. -/
theorem depth_obj_le {fields : List (String × Value)} {n : Nat} :
    (obj fields).depth ≤ n + 1 ↔ ∀ field ∈ fields, field.2.depth ≤ n := by
  rw [depth, Nat.add_le_add_iff_right, depthFields_le]

theorem depth_lt_arr {v : Value} {items : List Value} (h : v ∈ items) :
    v.depth < (arr items).depth := by
  have hitems := depthItems_le.mp (Nat.le_refl (depthItems items)) v h
  rw [depth]
  omega

theorem depth_lt_obj {field : String × Value} {fields : List (String × Value)}
    (h : field ∈ fields) : field.2.depth < (obj fields).depth := by
  have hfields := depthFields_le.mp (Nat.le_refl (depthFields fields)) field h
  rw [depth]
  omega

theorem Part.depth_le {u v : Value} (h : u.Part v) : u.depth ≤ v.depth := by
  induction h with
  | refl => exact Nat.le_refl _
  | item hv _ ih => exact Nat.le_trans ih (Nat.le_of_lt (depth_lt_arr hv))
  | field hfield _ ih => exact Nat.le_trans ih (Nat.le_of_lt (depth_lt_obj hfield))

/-- A value that is read from text is within the limit. -/
theorem depth_ofJson {text : String} {v : Value} (h : ofJson text = .ok v) :
    v.depth ≤ Json.maxDepth := by
  have hbuilt : Json.BuiltUp fun n v => v.depth ≤ n := by
    refine ⟨?null, ?bool, ?num, ?str, ?arr, ?obj⟩
    case arr => exact fun _ _ hitems => depth_arr_le.mpr hitems
    case obj => exact fun _ _ _ hfields => depth_obj_le.mpr hfields
    all_goals simp
  exact hbuilt.ofJson h

/-! ## Distinct keys -/

/-- An array has distinct keys iff its elements have. -/
theorem distinctKeys_arr {items : List Value} :
    (arr items).DistinctKeys ↔ ∀ v ∈ items, v.DistinctKeys := by
  rw [DistinctKeys]
  induction items with
  | nil => simp [DistinctKeysItems]
  | cons v rest ih => rw [DistinctKeysItems, ih, List.forall_mem_cons]

/-- An object has distinct keys iff its own keys are distinct and its values have distinct keys. -/
theorem distinctKeys_obj {fields : List (String × Value)} :
    (obj fields).DistinctKeys ↔
      Fields.Distinct fields ∧ ∀ field ∈ fields, field.2.DistinctKeys := by
  have hfields : DistinctKeysFields fields ↔ ∀ field ∈ fields, field.2.DistinctKeys := by
    induction fields with
    | nil => simp [DistinctKeysFields]
    | cons field rest ih => rw [DistinctKeysFields, ih, List.forall_mem_cons]
  rw [DistinctKeys, hfields]

/-- What a field gives has distinct keys if the object has. -/
theorem DistinctKeys.field? {v : Value} (hd : v.DistinctKeys) (name : String) :
    ∀ u ∈ v.field? name, u.DistinctKeys := by
  intro u hu
  unfold Value.field? at hu
  split at hu
  · exact (distinctKeys_obj.mp hd).2 _ (Fields.mem_of_get? hu)
  · cases hu

end Value

/-- No object in a value that is read from text has a key twice, at any depth. -/
theorem Value.distinctKeys_ofJson {text : String} {v : Value} (h : ofJson text = .ok v) :
    v.DistinctKeys := by
  have hbuilt : Json.BuiltUp fun _ v => v.DistinctKeys := by
    refine ⟨?null, ?bool, ?num, ?str, ?arr, ?obj⟩
    case arr => exact fun _ _ hitems => distinctKeys_arr.mpr hitems
    case obj => exact fun _ _ hkeys hfields => distinctKeys_obj.mpr ⟨hkeys, hfields⟩
    all_goals simp [DistinctKeys]
  exact hbuilt.ofJson h

end PathQuery
