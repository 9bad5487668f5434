import PathQuery.Proofs.Json.Remainder

/-!
# Objects as they are written

`Json.IsObject text pairs` gives every key with its value as they stand between the braces of the
text, with all repetitions.

* `Value.ofJson_obj_iff`: reading inserts these pairs one after the other, and nothing else is read
  as an object.
* `Json.GivesPairs` is the loop of the reader without its count of rounds. The rounds suffice
  because a field takes at least one character (`ReadsField.length_lt`).
-/

namespace PathQuery

namespace Json

variable {n : Nat} {k : String} {v : Value} {cs rest behind next : List Char}
  {pairs fields : List (String × Value)}

/-! ## Pairs -/

/-- From behind the quote that opens its key, a field is read: its key, a colon and its value. -/
def ReadsField (n : Nat) (cs : List Char) (k : String) (v : Value) (rest : List Char) : Prop :=
  ∃ behindKey behindColon, readString cs = .ok (k, behindKey) ∧
    readColon behindKey = .ok behindColon ∧ readValue n behindColon = .ok (v, rest)

/-- From behind the quote that opens its first key, an object gives these pairs, in the order in
which they are written and with every repetition of a key. `rest` is behind its closing brace. -/
inductive GivesPairs (n : Nat) : List Char → List (String × Value) → List Char → Prop where
  | last {cs behind rest : List Char} {k : String} {v : Value} (field : ReadsField n cs k v behind)
      (close : skipBlanks behind = '\x7d' :: rest) : GivesPairs n cs [(k, v)] rest
  | more {cs behind behindComma next rest : List Char} {k : String} {v : Value}
      {pairs : List (String × Value)} (field : ReadsField n cs k v behind)
      (comma : skipBlanks behind = ',' :: behindComma)
      (quote : skipBlanks behindComma = '"' :: next) (others : GivesPairs n next pairs rest) :
      GivesPairs n cs ((k, v) :: pairs) rest

/-- A field is not read without using up a character. -/
theorem ReadsField.length_lt (h : ReadsField n cs k v rest) : rest.length < cs.length := by
  obtain ⟨behindKey, behindColon, hkey, hcolon, hv⟩ := h
  have hbehindKey := length_of_readString hkey
  have hbehindColon := length_of_readColon hcolon
  have hrest := readValue_leaves n behindColon v rest hv
  omega

/-- The loop of the reader gives pairs. -/
theorem givesPairs_of_readFields {bound : List Char}
    (h : readFields (readValue n) bound cs = .ok (pairs, rest)) : GivesPairs n cs pairs rest := by
  induction bound generalizing cs pairs with
  | nil => cases h
  | cons _ bound ih =>
    obtain ⟨⟨k, behindKey⟩, hkey, h⟩ := bind_eq_ok_iff.mp h
    obtain ⟨behindColon, hcolon, h⟩ := bind_eq_ok_iff.mp h
    obtain ⟨⟨v, behind⟩, hv, h⟩ := bind_eq_ok_iff.mp h
    have hfield : ReadsField n cs k v behind := ⟨behindKey, behindColon, hkey, hcolon, hv⟩
    dsimp only at h
    split at h
    · cases h
    · rename_i hclose
      cases h
      exact .last hfield hclose
    · rename_i behindComma hcomma
      split at h
      · cases h
      · rename_i next hquote
        obtain ⟨⟨more, behindMore⟩, hmore, h⟩ := bind_eq_ok_iff.mp h
        cases h
        exact .more hfield hcomma hquote (ih hmore)
      · cases h
      · cases h
    · cases h

/-- The loop stops at a closing brace. -/
theorem readFields_close (h : ReadsField n cs k v behind)
    (hclose : skipBlanks behind = '\x7d' :: rest) (b : Char) (bound : List Char) :
    readFields (readValue n) (b :: bound) cs = .ok ([(k, v)], rest) := by
  obtain ⟨behindKey, behindColon, hkey, hcolon, hv⟩ := h
  rw [readFields, hkey]
  simp only [bind, Except.bind, hcolon, hv, hclose]
  rfl

/-- The loop goes on behind a comma. -/
theorem readFields_comma (h : ReadsField n cs k v rest) (hcomma : skipBlanks rest = ',' :: behind)
    (hnext : skipBlanks behind = '"' :: next) (b : Char) (bound : List Char) :
    readFields (readValue n) (b :: bound) cs =
      (readFields (readValue n) bound next).map fun (more, rest) => ((k, v) :: more, rest) := by
  obtain ⟨behindKey, behindColon, hkey, hcolon, hv⟩ := h
  rw [readFields, hkey]
  simp only [bind, Except.bind, hcolon, hv, hcomma, hnext]
  cases readFields (readValue n) bound next <;> rfl

/-- A bound that is longer than the text does not give out. -/
theorem readFields_of_givesPairs (h : GivesPairs n cs pairs rest) (bound : List Char)
    (hbound : cs.length < bound.length) :
    readFields (readValue n) bound cs = .ok (pairs, rest) := by
  induction h generalizing bound with
  | last hfield hclose =>
    obtain ⟨b, bound, rfl⟩ := List.exists_cons_of_length_pos (Nat.zero_lt_of_lt hbound)
    exact readFields_close hfield hclose b bound
  | @more cs behind behindComma next rest k v pairs hfield hcomma hquote _ ih =>
    obtain ⟨b, bound, rfl⟩ := List.exists_cons_of_length_pos (Nat.zero_lt_of_lt hbound)
    -- the field takes at least as many characters off the text as the round takes off the bound
    have hinner : next.length < bound.length := by
      have hlt := hfield.length_lt
      have hskip := length_skipBlanks_le behind
      have hskip' := length_skipBlanks_le behindComma
      rw [hcomma] at hskip
      rw [hquote] at hskip'
      simp only [List.length_cons] at hbound hskip hskip'
      omega
    rw [readFields_comma hfield hcomma hquote, ih bound hinner]
    rfl

/-! ## Objects -/

/-- From behind its opening brace, an object gives these pairs. -/
def GivesObject (n : Nat) (inside : List Char) (pairs : List (String × Value))
    (rest : List Char) : Prop :=
  (pairs = [] ∧ skipBlanks inside = '\x7d' :: rest) ∨
    ∃ next, skipBlanks inside = '"' :: next ∧ GivesPairs n next pairs rest

/-- What the reader makes of an object is what comes from inserting its pairs. -/
theorem readObject_eq_ok_iff :
    readObject (readValue n) cs = .ok (.obj fields, rest) ↔
      ∃ pairs, GivesObject n cs pairs rest ∧ fields = Fields.ofPairs pairs := by
  constructor
  · intro h
    rw [readObject] at h
    split at h
    · cases h
    · rename_i hclose
      cases h
      exact ⟨[], .inl ⟨rfl, hclose⟩, rfl⟩
    · rename_i next hquote
      cases hread : readFields (readValue n) ('"' :: next) next with
      | error fault =>
        rw [hread] at h
        cases h
      | ok read =>
        rw [hread] at h
        cases h
        exact ⟨read.1, .inr ⟨next, hquote, givesPairs_of_readFields hread⟩, rfl⟩
    · cases h
  · rintro ⟨pairs, ⟨rfl, hclose⟩ | ⟨next, hquote, hpairs⟩, rfl⟩
    · rw [readObject, hclose]
      rfl
    · have hread := readFields_of_givesPairs hpairs ('"' :: next) (Nat.lt_succ_self _)
      rw [readObject, hquote]
      simp only [hread]
      rfl

theorem readArray_ne_obj (readItem : List Char → Outcome Value) (cs : List Char) :
    Yields (fun v => ∀ fields, v ≠ .obj fields) (readArray readItem cs) := by
  unfold readArray
  split
  · exact yields_error _
  · exact yields_ok (by simp) _
  · exact yields_map fun _ _ _ => by simp

/-- Only what begins with a brace is read as an object. -/
theorem readValue_obj_iff :
    readValue (n + 1) cs = .ok (.obj fields, rest) ↔
      ∃ inside, skipBlanks cs = '\x7b' :: inside ∧
        readObject (readValue n) inside = .ok (.obj fields, rest) := by
  rw [readValue, readValueWith]
  constructor
  · intro h
    -- behind any other first character there is no object
    have other {outcome : Outcome Value}
        (houtcome : Yields (fun v => ∀ fields, v ≠ .obj fields) outcome) :
        outcome ≠ .ok (.obj fields, rest) :=
      fun hread => houtcome _ _ hread fields rfl
    split at h
    · cases h
    · exact absurd h (other (readWord_yields (by simp) _ _))
    · exact absurd h (other (readWord_yields (by simp) _ _))
    · exact absurd h (other (readWord_yields (by simp) _ _))
    · exact absurd h (other (yields_map fun _ _ _ => by simp))
    · exact absurd h (other (yields_map fun _ _ _ => by simp))
    · exact absurd h (other (readArray_ne_obj _ _))
    · rename_i inside hopen
      exact ⟨inside, hopen, h⟩
    · split at h
      · exact absurd h (other (yields_map fun _ _ _ => by simp))
      · cases h
  · rintro ⟨inside, hopen, hobject⟩
    simp only [hopen, hobject]

/-- The text is an object with these pairs, and nothing else. -/
def IsObject (text : String) (pairs : List (String × Value)) : Prop :=
  ∃ inside rest, skipBlanks text.toList = '\x7b' :: inside ∧
    GivesObject (maxDepth - 1) inside pairs rest ∧ skipBlanks rest = []

end Json

/-- A text that is an object is read as what comes from inserting its pairs one after the other. -/
theorem Value.ofJson_obj_iff {text : String} {fields : List (String × Value)} :
    ofJson text = .ok (.obj fields) ↔
      ∃ pairs, Json.IsObject text pairs ∧ fields = Fields.ofPairs pairs := by
  rw [ofJson_eq_ok_iff]
  constructor
  · rintro ⟨rest, hread, hend⟩
    obtain ⟨inside, hopen, hobject⟩ := Json.readValue_obj_iff.mp hread
    obtain ⟨pairs, hpairs, hfields⟩ := Json.readObject_eq_ok_iff.mp hobject
    exact ⟨pairs, ⟨inside, rest, hopen, hpairs, hend⟩, hfields⟩
  · rintro ⟨pairs, ⟨inside, rest, hopen, hpairs, hend⟩, hfields⟩
    have hobject := Json.readObject_eq_ok_iff.mpr ⟨pairs, hpairs, hfields⟩
    exact ⟨rest, Json.readValue_obj_iff.mpr ⟨inside, hopen, hobject⟩, hend⟩

end PathQuery
