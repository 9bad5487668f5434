import PathQuery.Proofs.Json.Reading
import PathQuery.Proofs.Json.Numbers
import PathQuery.Proofs.Json.Objects
import PathQuery.Proofs.Json.Parts
import PathQuery.Proofs.Json.Strings

/-!
# Values read back

* `Value.ofJson_toJson`: what is written for a value, in either style, is read as that value, if no
  object in it has a key twice and it is no deeper than the reader goes.
* `Value.toJson_injective`: different values are written differently.
* `Json.ReadsBack` says it of a part, with the rest of the text behind it. Arrays follow the loop of
  the reader (`readItems_write`), and objects its description (`givesPairs_write`).
-/

namespace PathQuery

namespace Json

variable {style : JsonStyle} {n depth outer : Nat} {v w : Value} {k : String}
  {cs cs' rest behind : List Char}

/-! ## Blanks -/

theorem skipBlanks_skipBlanks (cs : List Char) : skipBlanks (skipBlanks cs) = skipBlanks cs := by
  unfold skipBlanks
  induction cs with
  | nil => rfl
  | cons c cs ih =>
    rw [List.dropWhile_cons]
    split
    · exact ih
    · rename_i hc
      rw [List.dropWhile_cons, if_neg hc]

theorem skipBlanks_lineBreak (style : JsonStyle) (depth : Nat) (cs : List Char) :
    skipBlanks (style.lineBreak depth ++ cs) = skipBlanks cs := by
  cases style with
  | compact => rfl
  | pretty =>
    have hblank : ∀ c ∈ '\n' :: List.replicate (2 * depth) ' ', isBlank c = true := by
      rw [List.forall_mem_cons]
      exact ⟨rfl, fun c hc => List.eq_of_mem_replicate hc ▸ rfl⟩
    exact List.dropWhile_append_of_pos hblank

/-- Blanks in front of a value make no difference. -/
theorem readValue_congr (h : skipBlanks cs = skipBlanks cs') :
    readValue n cs = readValue n cs' := by
  cases n <;> simp only [readValue, readValueWith, h]

/-- A value neither ends the text nor closes an array. -/
theorem head_of_readValue (h : readValue n cs = .ok (v, rest)) :
    ∃ c ds, skipBlanks cs = c :: ds ∧ c ≠ ']' := by
  have hskip : readValue n (skipBlanks cs) = .ok (v, rest) :=
    (readValue_congr (skipBlanks_skipBlanks cs)).trans h
  cases hcs : skipBlanks cs with
  | nil =>
    rw [hcs] at hskip
    cases n <;> cases hskip
  | cons c ds =>
    refine ⟨c, ds, rfl, ?_⟩
    rintro rfl
    rw [hcs] at hskip
    cases n <;> cases hskip

/-! ## What ends a number -/

theorem endsNumber_nil : EndsNumber [] := nofun

theorem endsNumber_comma (cs : List Char) : EndsNumber (',' :: cs) := by
  rintro _ ⟨⟩
  decide

/-- A number ends at a closing bracket or brace, with a line break or without. -/
theorem endsNumber_close {close : Char} (h : close = ']' ∨ close = '\x7d') (style : JsonStyle)
    (outer : Nat) (cs : List Char) : EndsNumber (style.lineBreak outer ++ close :: cs) := by
  rintro c hc
  cases style with
  | compact =>
    cases hc
    rcases h with rfl | rfl <;> decide
  | pretty =>
    cases hc
    decide

/-- What is written for the value, with so many containers around it, is read as the value. -/
def ReadsBack (style : JsonStyle) (depth n : Nat) (v : Value) : Prop :=
  ∀ {rest}, EndsNumber rest → readValue n (v.write style depth ++ rest) = .ok (v, rest)

/-- The value is not made of blanks, so skipping them stops before its end. -/
theorem ReadsBack.length_le (h : ReadsBack style depth n v) (rest : List Char) :
    rest.length ≤ (skipBlanks (v.write style depth ++ rest)).length := by
  obtain ⟨c, ds, hhead, -⟩ := head_of_readValue (h endsNumber_nil)
  rw [List.append_nil, skipBlanks] at hhead
  rw [skipBlanks, List.dropWhile_append, hhead]
  simp
  omega

/-! ## Arrays -/

theorem readItems_congr (h : skipBlanks cs = skipBlanks cs') (bound : List Char) :
    readItems (readValue n) bound cs = readItems (readValue n) bound cs' := by
  cases bound with
  | nil => rfl
  | cons b bound => rw [readItems, readItems, readValue_congr h]

/-- The loop stops at a closing bracket. -/
theorem readItems_close (hv : readValue n cs = .ok (v, behind))
    (hclose : skipBlanks behind = ']' :: rest) (b : Char) (bound : List Char) :
    readItems (readValue n) (b :: bound) cs = .ok ([v], rest) := by
  rw [readItems, hv]
  simp only [bind, Except.bind, hclose]
  rfl

/-- The loop goes on behind a comma. -/
theorem readItems_comma (hv : readValue n cs = .ok (v, ',' :: behind))
    (hw : readValue n behind = .ok (w, rest)) (b : Char) (bound : List Char) :
    readItems (readValue n) (b :: bound) cs =
      (readItems (readValue n) bound behind).map fun (more, rest) => (v :: more, rest) := by
  have hcomma : skipBlanks (',' :: behind) = ',' :: behind := rfl
  -- an element can be read there, so the bracket does not close behind the comma
  obtain ⟨c, ds, hhead, hc⟩ := head_of_readValue hw
  have hskip : readItems (readValue n) bound (c :: ds) = readItems (readValue n) bound behind :=
    hhead ▸ readItems_congr (skipBlanks_skipBlanks behind) bound
  rw [readItems, hv]
  simp only [bind, Except.bind, hcomma, hhead]
  split
  · rename_i hclosed
    exact absurd (List.cons.inj hclosed).1 hc
  · rw [hskip]
    cases readItems (readValue n) bound behind <;> rfl

theorem endsNumber_writeItems (style : JsonStyle) (depth : Nat) (items : List Value)
    (h : EndsNumber rest) : EndsNumber (Value.writeItems style depth items ++ rest) := by
  cases items with
  | nil => exact h
  | cons => exact endsNumber_comma _

/-- The elements of an array are read up to the closing bracket. -/
theorem readItems_write {items : List Value} (hfirst : ReadsBack style depth n v)
    (hitems : ∀ w ∈ items, ReadsBack style depth n w) {bound closing : List Char}
    (hbound : items.length < bound.length) (hends : EndsNumber closing)
    (hclose : skipBlanks closing = ']' :: rest) :
    readItems (readValue n) bound
        (v.write style depth ++ (Value.writeItems style depth items ++ closing)) =
      .ok (v :: items, rest) := by
  obtain ⟨b, bound, rfl⟩ := List.exists_cons_of_length_pos (Nat.zero_lt_of_lt hbound)
  have hv := hfirst (endsNumber_writeItems style depth items hends)
  -- each round writes a comma and an element, and takes one character off the bound
  induction items generalizing v b bound with
  | nil => exact readItems_close hv hclose b bound
  | cons w items ih =>
    rw [List.forall_mem_cons] at hitems
    have hinner : items.length < bound.length := Nat.lt_of_succ_lt_succ hbound
    obtain ⟨b', bound, rfl⟩ := List.exists_cons_of_length_pos (Nat.zero_lt_of_lt hinner)
    have hw := hitems.1 (endsNumber_writeItems style depth items hends)
    have hbreak := skipBlanks_lineBreak style depth
      (w.write style depth ++ (Value.writeItems style depth items ++ closing))
    have hmore := ih hitems.1 hitems.2 b' bound hinner hw
    rw [Value.writeItems, List.cons_append, List.append_assoc, List.append_assoc] at hv ⊢
    rw [readItems_comma hv ((readValue_congr hbreak).trans hw), readItems_congr hbreak, hmore]
    rfl

/-- The text of an array has a character for each element, so the bound of the loop suffices. -/
theorem length_le_writeItems (style : JsonStyle) (depth : Nat) (items : List Value) :
    items.length ≤ (Value.writeItems style depth items).length := by
  induction items with
  | nil => exact Nat.zero_le _
  | cons w items ih =>
    rw [Value.writeItems]
    simp only [List.length_cons, List.length_append]
    omega

/-- An array whose first element can be read has elements. -/
theorem readArray_items (hv : readValue n cs = .ok (v, rest)) :
    readArray (readValue n) cs =
      (readItems (readValue n) (skipBlanks cs) cs).map fun (items, rest) => (.arr items, rest) := by
  have hskip := readItems_congr (n := n) (skipBlanks_skipBlanks cs) (skipBlanks cs)
  obtain ⟨c, ds, hhead, hc⟩ := head_of_readValue hv
  rw [← hskip, readArray, hhead]
  split
  · rename_i hend
    cases hend
  · rename_i hclosed
    exact absurd (List.cons.inj hclosed).1 hc
  · rfl

/-- The text of an array behind its opening bracket, for at least one element. -/
theorem readArray_write {items : List Value} (hfirst : ReadsBack style depth n v)
    (hitems : ∀ w ∈ items, ReadsBack style depth n w) {closing : List Char}
    (hends : EndsNumber closing) (hclose : skipBlanks closing = ']' :: rest) :
    readArray (readValue n) (style.lineBreak depth ++
        (v.write style depth ++ (Value.writeItems style depth items ++ closing))) =
      .ok (.arr (v :: items), rest) := by
  have hv := hfirst (endsNumber_writeItems style depth items hends)
  have hbound : items.length < (skipBlanks (v.write style depth ++
      (Value.writeItems style depth items ++ closing))).length := by
    have hlength := ReadsBack.length_le hfirst (Value.writeItems style depth items ++ closing)
    have hwrite := length_le_writeItems style depth items
    have hpos : closing ≠ [] := by
      rintro rfl
      cases hclose
    have := List.length_pos_iff.mpr hpos
    rw [List.length_append] at hlength
    omega
  have hread := readItems_write hfirst hitems hbound hends hclose
  have hbreak := skipBlanks_lineBreak style depth
    (v.write style depth ++ (Value.writeItems style depth items ++ closing))
  rw [readArray_items ((readValue_congr hbreak).trans hv), readItems_congr hbreak, hbreak, hread]
  rfl

/-- An array is read back if its elements are. -/
theorem readsBack_arr {items : List Value}
    (h : ∀ v ∈ items, ReadsBack style (depth + 1) n v) :
    ReadsBack style depth (n + 1) (.arr items) := by
  intro rest _
  cases items with
  | nil => rfl
  | cons v items =>
    rw [List.forall_mem_cons] at h
    have hread := readArray_write h.1 h.2 (endsNumber_close (.inl rfl) style depth rest)
      (skipBlanks_lineBreak style depth _)
    have hwrite : (Value.arr (v :: items)).write style depth ++ rest =
        '[' :: (style.lineBreak (depth + 1) ++ (v.write style (depth + 1) ++
          (Value.writeItems style (depth + 1) items ++
            (style.lineBreak depth ++ ']' :: rest)))) := by
      rw [Value.write]
      simp
    rw [hwrite]
    exact hread

/-! ## Objects -/

/-- The colon is written with a blank behind it or without. -/
theorem readColon_colon (style : JsonStyle) (cs : List Char) :
    ∃ behind, readColon (style.colon ++ cs) = .ok behind ∧ skipBlanks behind = skipBlanks cs := by
  cases style with
  | compact => exact ⟨cs, rfl, rfl⟩
  | pretty => exact ⟨' ' :: cs, rfl, rfl⟩

/-- A field is read back if its value is. -/
theorem readsField_write (hv : ReadsBack style depth n v) (k : String) (hrest : EndsNumber rest) :
    ReadsField n
      (k.toList.flatMap escape ++ '"' :: (style.colon ++ (v.write style depth ++ rest))) k v
      rest := by
  obtain ⟨behind, hcolon, hbehind⟩ := readColon_colon style (v.write style depth ++ rest)
  exact ⟨_, behind, readString_write k _, hcolon, (readValue_congr hbehind).trans (hv hrest)⟩

theorem quote_append (k : String) (rest : List Char) :
    quote k ++ rest = '"' :: (k.toList.flatMap escape ++ '"' :: rest) := by
  simp [quote]

theorem endsNumber_writeFields (style : JsonStyle) (depth : Nat) (fields : List (String × Value))
    (h : EndsNumber rest) : EndsNumber (Value.writeFields style depth fields ++ rest) := by
  cases fields with
  | nil => exact h
  | cons => exact endsNumber_comma _

/-- What is written for a field and the fields behind it gives them as pairs. -/
theorem givesPairs_write {fields : List (String × Value)} (hfirst : ReadsBack style depth n v)
    (hfields : ∀ field ∈ fields, ReadsBack style depth n field.2) {closing : List Char}
    (hends : EndsNumber closing) (hclose : skipBlanks closing = '\x7d' :: rest) :
    GivesPairs n (k.toList.flatMap escape ++ '"' :: (style.colon ++
        (v.write style depth ++ (Value.writeFields style depth fields ++ closing))))
      ((k, v) :: fields) rest := by
  have hfield := readsField_write hfirst k (endsNumber_writeFields style depth fields hends)
  induction fields generalizing k v with
  | nil => exact .last hfield hclose
  | cons field fields ih =>
    obtain ⟨k', w⟩ := field
    rw [List.forall_mem_cons] at hfields
    have hnext := readsField_write hfields.1 k' (endsNumber_writeFields style depth fields hends)
    have hmore := ih hfields.1 hfields.2 hnext
    have hquote : skipBlanks (style.lineBreak depth ++ (quote k' ++ (style.colon ++
        (w.write style depth ++ (Value.writeFields style depth fields ++ closing))))) =
          '"' :: (k'.toList.flatMap escape ++ '"' :: (style.colon ++
            (w.write style depth ++ (Value.writeFields style depth fields ++ closing)))) := by
      rw [skipBlanks_lineBreak, quote_append]
      rfl
    simp only [Value.writeFields, List.cons_append, List.append_assoc] at hfield ⊢
    exact .more hfield rfl hquote hmore

/-- The text of an object behind its opening brace, for at least one field. -/
theorem readObject_write {fields : List (String × Value)} (hfirst : ReadsBack style depth n v)
    (hfields : ∀ field ∈ fields, ReadsBack style depth n field.2) {closing : List Char}
    (hends : EndsNumber closing) (hclose : skipBlanks closing = '\x7d' :: rest) :
    readObject (readValue n) (style.lineBreak depth ++ (quote k ++ (style.colon ++
        (v.write style depth ++ (Value.writeFields style depth fields ++ closing))))) =
      .ok (.obj (Fields.ofPairs ((k, v) :: fields)), rest) := by
  have hquote : skipBlanks (style.lineBreak depth ++ (quote k ++ (style.colon ++
      (v.write style depth ++ (Value.writeFields style depth fields ++ closing))))) =
        '"' :: (k.toList.flatMap escape ++ '"' :: (style.colon ++
          (v.write style depth ++ (Value.writeFields style depth fields ++ closing)))) := by
    rw [skipBlanks_lineBreak, quote_append]
    rfl
  have hpairs := givesPairs_write hfirst hfields hends hclose (k := k)
  exact readObject_eq_ok_iff.mpr ⟨_, .inr ⟨_, hquote, hpairs⟩, rfl⟩

/-- An object with distinct keys is read back if its fields are. -/
theorem readsBack_obj {fields : List (String × Value)} (hkeys : Fields.Distinct fields)
    (h : ∀ field ∈ fields, ReadsBack style (depth + 1) n field.2) :
    ReadsBack style depth (n + 1) (.obj fields) := by
  intro rest _
  cases fields with
  | nil => rfl
  | cons field fields =>
    obtain ⟨k, v⟩ := field
    rw [List.forall_mem_cons] at h
    have hread := readObject_write h.1 h.2 (endsNumber_close (.inr rfl) style depth rest)
      (skipBlanks_lineBreak style depth _) (k := k)
    have hwrite : (Value.obj ((k, v) :: fields)).write style depth ++ rest =
        '\x7b' :: (style.lineBreak (depth + 1) ++ (quote k ++ (style.colon ++
          (v.write style (depth + 1) ++ (Value.writeFields style (depth + 1) fields ++
            (style.lineBreak depth ++ '\x7d' :: rest)))))) := by
      rw [Value.write]
      simp
    rw [Fields.ofPairs_eq_self hkeys] at hread
    rw [hwrite]
    exact hread

/-! ## Values -/

/-- Whatever has distinct keys and is not too deep is read as it was written. -/
theorem readsBack {v : Value} (hkeys : v.DistinctKeys) (hdepth : v.depth ≤ n) (style : JsonStyle)
    (depth : Nat) : ReadsBack style depth n v := by
  -- a container takes one off `n`, and what is in it is written one level further in
  induction v generalizing n depth with
  | null =>
    intro rest _
    cases n <;> rfl
  | bool b =>
    intro rest _
    cases n <;> cases b <;> rfl
  | num m =>
    intro rest hrest
    cases n <;> exact readValueWith_write_num _ hrest m
  | str s =>
    intro rest _
    have hread (readItem? : Option (List Char → Outcome Value)) :
        readValueWith readItem? (quote s ++ rest) = .ok (.str s, rest) := by
      rw [quote_append]
      show (readString _).map _ = _
      rw [readString_write]
      rfl
    cases n <;> exact hread _
  | arr items ih =>
    rw [Value.distinctKeys_arr] at hkeys
    cases n with
    | zero => simp [Value.depth] at hdepth
    | succ n =>
      rw [Value.depth_arr_le] at hdepth
      exact readsBack_arr fun v hv => ih v hv (hkeys v hv) (hdepth v hv) (depth + 1)
  | obj fields ih =>
    rw [Value.distinctKeys_obj] at hkeys
    cases n with
    | zero => simp [Value.depth] at hdepth
    | succ n =>
      rw [Value.depth_obj_le] at hdepth
      exact readsBack_obj hkeys.1 fun field hfield =>
        ih field hfield (hkeys.2 field hfield) (hdepth field hfield) (depth + 1)

end Json

namespace Value

variable {v w : Value}

/-- What is printed for a value that is not too deep, its line end included, is read as the value.
-/
theorem ofJson_toJson (hkeys : v.DistinctKeys) (hdepth : v.depth ≤ Json.maxDepth)
    (style : JsonStyle) : ofJson (v.toJson style ++ "\n") = .ok v := by
  rw [ofJson_eq_ok_iff]
  have hends : Json.EndsNumber ['\n'] := by
    rintro _ ⟨⟩
    decide
  have hread := Json.readsBack hkeys hdepth style 0 hends
  refine ⟨['\n'], ?_, rfl⟩
  rw [String.toList_append, toJson, String.toList_ofList]
  exact hread

/-- Different values are written differently. -/
theorem toJson_injective (hv : v.DistinctKeys) (hw : w.DistinctKeys) {style : JsonStyle}
    (h : v.toJson style = w.toJson style) : v = w := by
  -- the reader may go as deep as either value needs
  have hreadv := Json.readsBack hv (Nat.le_max_left v.depth w.depth) style 0 Json.endsNumber_nil
  have hreadw := Json.readsBack hw (Nat.le_max_right v.depth w.depth) style 0 Json.endsNumber_nil
  have hwrite : v.write style 0 = w.write style 0 := String.ofList_injective h
  rw [hwrite, hreadw] at hreadv
  cases hreadv
  rfl

end Value

end PathQuery
