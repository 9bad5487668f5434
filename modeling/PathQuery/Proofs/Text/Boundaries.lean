import PathQuery.Text

/-!
# Offsets between characters

`IsBoundary` says that the bytes in front of an offset are whole characters.

* `isSome_slice?_iff`: two offsets cut out a slice iff both are boundaries in their order.
* `isSome_dropBytes?_iff`: an offset cuts off a rest iff it is a boundary.
-/

namespace PathQuery.Text

/-- The offset lies between two characters, or at an end of the text. -/
def IsBoundary (cs : List Char) (offset : Nat) : Prop :=
  ∃ before after, cs = before ++ after ∧ byteCount before = offset

variable {cs rest front : List Char} {i j n : Nat}

theorem IsBoundary.le (h : IsBoundary cs n) : n ≤ byteCount cs := by
  obtain ⟨before, after, rfl, rfl⟩ := h
  rw [byteCount_append]
  exact Nat.le_add_right _ _

theorem eq_nil_of_byteCount (h : byteCount cs = 0) : cs = [] := by
  cases cs with
  | nil => rfl
  | cons c cs =>
    have hpos := c.utf8Size_pos
    rw [byteCount_cons] at h
    omega

/-- `dropBytes?` gives the text behind a front part of so many bytes. -/
theorem dropBytes?_eq_some_iff :
    dropBytes? n cs = some rest ↔ ∃ before, cs = before ++ rest ∧ byteCount before = n := by
  constructor
  · intro h
    induction cs generalizing n with
    | nil =>
      cases n with
      | zero =>
        cases h
        exact ⟨[], rfl, rfl⟩
      | succ n => cases h
    | cons c cs ih =>
      cases n with
      | zero =>
        cases h
        exact ⟨[], rfl, rfl⟩
      | succ n =>
        -- a character is dropped as a whole, or the offset falls into it
        rw [dropBytes?] at h
        split at h
        · obtain ⟨before, rfl, hcount⟩ := ih h
          exact ⟨c :: before, rfl, by rw [byteCount_cons]; omega⟩
        · cases h
  · rintro ⟨before, rfl, rfl⟩
    exact dropBytes?_append before rest

/-- `takeBytes?` gives the front part of so many bytes. -/
theorem takeBytes?_eq_some_iff :
    takeBytes? n cs = some front ↔ ∃ after, cs = front ++ after ∧ byteCount front = n := by
  constructor
  · intro h
    induction cs generalizing n front with
    | nil =>
      cases n with
      | zero =>
        cases h
        exact ⟨[], rfl, rfl⟩
      | succ n => cases h
    | cons c cs ih =>
      cases n with
      | zero =>
        cases h
        exact ⟨c :: cs, rfl, rfl⟩
      | succ n =>
        rw [takeBytes?] at h
        split at h
        · obtain ⟨front, hfront, rfl⟩ := Option.map_eq_some_iff.mp h
          obtain ⟨after, rfl, hcount⟩ := ih hfront
          exact ⟨after, rfl, by rw [byteCount_cons]; omega⟩
        · cases h
  · rintro ⟨after, rfl, rfl⟩
    exact takeBytes?_append front after

/-- A text can be cut off exactly at its boundaries. -/
theorem isSome_dropBytes?_iff : (dropBytes? n cs).isSome ↔ IsBoundary cs n := by
  rw [Option.isSome_iff_exists]
  constructor
  · rintro ⟨rest, h⟩
    obtain ⟨before, htext, hcount⟩ := dropBytes?_eq_some_iff.mp h
    exact ⟨before, rest, htext, hcount⟩
  · rintro ⟨before, rest, htext, hcount⟩
    exact ⟨rest, dropBytes?_eq_some_iff.mpr ⟨before, htext, hcount⟩⟩

/-- Boundaries in their order have whole characters between them. -/
theorem exists_between (hi : IsBoundary cs i) (hj : IsBoundary cs j) (hle : i ≤ j) :
    ∃ before piece after, cs = before ++ (piece ++ after) ∧ byteCount before = i ∧
      byteCount before + byteCount piece = j := by
  obtain ⟨before, rest, rfl, rfl⟩ := hi
  obtain ⟨front, after, htext, rfl⟩ := hj
  rcases List.append_eq_append_iff.mp htext with ⟨piece, rfl, rfl⟩ | ⟨piece, rfl, rfl⟩
  · exact ⟨before, piece, after, rfl, rfl, (byteCount_append _ _).symm⟩
  · -- then there is nothing between them
    rw [byteCount_append] at hle
    have hpiece : piece = [] := eq_nil_of_byteCount (by omega)
    subst hpiece
    exact ⟨front ++ [], [], rest, rfl, rfl, by simp⟩

/-- A slice can be cut out exactly between two boundaries in their order. -/
theorem isSome_slice?_iff :
    (slice? cs i j).isSome ↔ i ≤ j ∧ IsBoundary cs i ∧ IsBoundary cs j := by
  constructor
  · intro h
    rw [slice?] at h
    split at h
    · rename_i hle
      obtain ⟨piece, hslice⟩ := Option.isSome_iff_exists.mp h
      obtain ⟨rest, hrest, hpiece⟩ := Option.bind_eq_some_iff.mp hslice
      obtain ⟨before, rfl, rfl⟩ := dropBytes?_eq_some_iff.mp hrest
      obtain ⟨after, rfl, hcount⟩ := takeBytes?_eq_some_iff.mp hpiece
      refine ⟨hle, ⟨before, piece ++ after, rfl, rfl⟩, before ++ piece, after, by simp, ?_⟩
      rw [byteCount_append]
      omega
    · cases h
  · rintro ⟨hle, hi, hj⟩
    obtain ⟨before, piece, after, rfl, rfl, rfl⟩ := exists_between hi hj hle
    rw [slice?_append]
    rfl

end PathQuery.Text
