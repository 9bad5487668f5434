/-!
# Texts

* `isBlank` is the Unicode property White_Space. It is wider than the blanks of JSON
  (`Json.isBlank`), and excludes the zero-width space and the byte order mark.
* `trim` drops blanks from both ends. The result is `Trimmed` (`trimmed_trim`), it is a sublist of
  the text (`trim_sublist`), and a trimmed text is left alone (`trim_eq_self`).
* `splitWhen` cuts a text at every character of a class, and keeps empty pieces.
* `slice?` takes the characters between two byte offsets of the UTF-8 form. It is none where an
  offset lies beyond the text or inside a character.
-/

namespace PathQuery.Text

/-! ## Blanks -/

/-- The characters with the Unicode property White_Space. -/
def isBlank (c : Char) : Bool :=
  let n := c.toNat
  (0x09 ≤ n && n ≤ 0x0D) || n == 0x20 || n == 0x85 || n == 0xA0 || n == 0x1680 ||
    (0x2000 ≤ n && n ≤ 0x200A) || n == 0x2028 || n == 0x2029 || n == 0x202F || n == 0x205F ||
    n == 0x3000

/-- The text without the blanks at its two ends. -/
def trim (cs : List Char) : List Char :=
  ((cs.dropWhile isBlank).reverse.dropWhile isBlank).reverse

/-- Neither end of the text is blank. -/
def Trimmed (cs : List Char) : Prop :=
  (∀ c ∈ cs.head?, isBlank c = false) ∧ (∀ c ∈ cs.getLast?, isBlank c = false)

/-- `trim` only drops characters. -/
theorem trim_sublist (cs : List Char) : (trim cs).Sublist cs := by
  have h := List.dropWhile_sublist isBlank (l := (cs.dropWhile isBlank).reverse)
  exact (List.reverse_sublist.mpr h).trans
    (by simpa using List.dropWhile_sublist isBlank (l := cs))

theorem mem_of_mem_trim {c : Char} {cs : List Char} (h : c ∈ trim cs) : c ∈ cs :=
  (trim_sublist cs).mem h

/-- A text whose first character is not blank has no blanks to drop. -/
theorem dropWhile_isBlank_of_head {cs : List Char} (h : ∀ c ∈ cs.head?, isBlank c = false) :
    cs.dropWhile isBlank = cs := by
  cases cs with
  | nil => rfl
  | cons c rest => simp [h c (by simp)]

/-- What is left after dropping blanks does not start with one. -/
theorem head_dropWhile_isBlank (cs : List Char) :
    ∀ c ∈ (cs.dropWhile isBlank).head?, isBlank c = false := by
  induction cs with
  | nil => simp
  | cons c rest ih =>
    rw [List.dropWhile_cons]
    split
    · exact ih
    · simp_all

/-- A trimmed text has no blank at either end. -/
theorem trimmed_trim (cs : List Char) : Trimmed (trim cs) := by
  constructor
  · intro c hc
    rw [trim, List.head?_reverse] at hc
    obtain ⟨kept, hkept⟩ := List.dropWhile_suffix isBlank (l := (cs.dropWhile isBlank).reverse)
    refine head_dropWhile_isBlank cs c ?_
    rw [← List.getLast?_reverse, ← hkept, List.getLast?_append, hc]
    rfl
  · intro c hc
    rw [trim, List.getLast?_reverse] at hc
    exact head_dropWhile_isBlank _ c hc

/-- A text without blank ends is left alone. -/
theorem trim_eq_self {cs : List Char} (h : Trimmed cs) : trim cs = cs := by
  rw [trim, dropWhile_isBlank_of_head h.1, dropWhile_isBlank_of_head (by simpa using h.2),
    List.reverse_reverse]

/-! ## Pieces -/

/-- The texts between the characters that satisfy `isCut`. There is always at least one. -/
def splitWhen (isCut : Char → Bool) : List Char → List (List Char)
  | [] => [[]]
  | c :: cs =>
    if isCut c then [] :: splitWhen isCut cs
    else (splitWhen isCut cs).modifyHead (c :: ·)

/-- The number of bytes of the text in UTF-8. -/
def byteCount : List Char → Nat
  | [] => 0
  | c :: cs => c.utf8Size + byteCount cs

/-- The text from byte offset `n` on. -/
def dropBytes? : Nat → List Char → Option (List Char)
  | 0, cs => some cs
  | _ + 1, [] => none
  | n + 1, c :: cs => if c.utf8Size ≤ n + 1 then dropBytes? (n + 1 - c.utf8Size) cs else none

/-- The text before byte offset `n`. -/
def takeBytes? : Nat → List Char → Option (List Char)
  | 0, _ => some []
  | _ + 1, [] => none
  | n + 1, c :: cs =>
    if c.utf8Size ≤ n + 1 then (takeBytes? (n + 1 - c.utf8Size) cs).map (c :: ·) else none

/-- The text from byte offset `start` up to byte offset `stop`. -/
def slice? (cs : List Char) (start stop : Nat) : Option (List Char) :=
  if start ≤ stop then (dropBytes? start cs).bind (takeBytes? (stop - start)) else none

/-! ## Splitting -/

theorem splitWhen_ne_nil (isCut : Char → Bool) (cs : List Char) : splitWhen isCut cs ≠ [] := by
  induction cs with
  | nil => simp [splitWhen]
  | cons c cs ih =>
    rw [splitWhen]
    split
    · simp
    · simpa [List.modifyHead_eq_nil_iff] using ih

/-- No piece holds a character at which the text was cut. -/
theorem splitWhen_uncut {isCut : Char → Bool} {cs piece : List Char} {c : Char}
    (hp : piece ∈ splitWhen isCut cs) (hc : c ∈ piece) : isCut c = false := by
  induction cs generalizing piece with
  | nil =>
    rw [splitWhen, List.mem_singleton] at hp
    simp [hp] at hc
  | cons d cs ih =>
    rw [splitWhen] at hp
    split at hp
    · rcases List.mem_cons.mp hp with rfl | hp
      · simp at hc
      · exact ih hp hc
    · -- the character becomes part of the first piece of the rest
      rename_i hd
      cases hs : splitWhen isCut cs with
      | nil => exact absurd hs (splitWhen_ne_nil isCut cs)
      | cons first others =>
        rw [hs] at hp ih
        rcases List.mem_cons.mp hp with rfl | hp
        · rcases List.mem_cons.mp hc with rfl | hc
          · simpa using hd
          · exact ih (List.mem_cons_self ..) hc
        · exact ih (List.mem_cons_of_mem _ hp) hc

/-! ## Slices -/

@[simp] theorem byteCount_nil : byteCount [] = 0 := rfl

@[simp] theorem byteCount_cons (c : Char) (cs : List Char) :
    byteCount (c :: cs) = c.utf8Size + byteCount cs := rfl

@[simp] theorem byteCount_append (cs ds : List Char) :
    byteCount (cs ++ ds) = byteCount cs + byteCount ds := by
  induction cs with
  | nil => simp
  | cons c cs ih => rw [List.cons_append, byteCount_cons, byteCount_cons, ih, Nat.add_assoc]

theorem dropBytes?_append (cs ds : List Char) : dropBytes? (byteCount cs) (cs ++ ds) = some ds := by
  induction cs with
  | nil => simp [dropBytes?]
  | cons c cs ih =>
    have hpos := c.utf8Size_pos
    obtain ⟨n, hn⟩ := Nat.exists_eq_succ_of_ne_zero (n := c.utf8Size + byteCount cs) (by omega)
    rw [byteCount_cons, hn, Nat.succ_eq_add_one, List.cons_append, dropBytes?, if_pos (by omega),
      ← Nat.succ_eq_add_one, ← hn, Nat.add_sub_cancel_left, ih]

theorem takeBytes?_append (cs ds : List Char) : takeBytes? (byteCount cs) (cs ++ ds) = some cs := by
  induction cs with
  | nil => simp [takeBytes?]
  | cons c cs ih =>
    have hpos := c.utf8Size_pos
    obtain ⟨n, hn⟩ := Nat.exists_eq_succ_of_ne_zero (n := c.utf8Size + byteCount cs) (by omega)
    rw [byteCount_cons, hn, Nat.succ_eq_add_one, List.cons_append, takeBytes?, if_pos (by omega),
      ← Nat.succ_eq_add_one, ← hn, Nat.add_sub_cancel_left, ih]
    rfl

/-- Offsets that count whole characters cut out exactly what lies between them. -/
theorem slice?_append (before cs after : List Char) :
    slice? (before ++ (cs ++ after)) (byteCount before) (byteCount before + byteCount cs) =
      some cs := by
  rw [slice?, if_pos (Nat.le_add_right ..), dropBytes?_append, Nat.add_sub_cancel_left]
  exact takeBytes?_append cs after

theorem mem_of_dropBytes? {n : Nat} {cs rest : List Char} {c : Char}
    (h : dropBytes? n cs = some rest) (hc : c ∈ rest) : c ∈ cs := by
  induction cs generalizing n with
  | nil => cases n <;> simp_all [dropBytes?]
  | cons d cs ih =>
    cases n with
    | zero => simp_all [dropBytes?]
    | succ n =>
      rw [dropBytes?] at h
      split at h
      · exact List.mem_cons_of_mem _ (ih h)
      · simp at h

theorem mem_of_takeBytes? {n : Nat} {cs front : List Char} {c : Char}
    (h : takeBytes? n cs = some front) (hc : c ∈ front) : c ∈ cs := by
  induction cs generalizing n front with
  | nil => cases n <;> simp_all [takeBytes?]
  | cons d cs ih =>
    cases n with
    | zero => simp_all [takeBytes?]
    | succ n =>
      rw [takeBytes?] at h
      split at h
      · obtain ⟨front, hfront, rfl⟩ := Option.map_eq_some_iff.mp h
        rcases List.mem_cons.mp hc with rfl | hc
        · exact List.mem_cons_self ..
        · exact List.mem_cons_of_mem _ (ih hfront hc)
      · simp at h

theorem mem_of_slice? {cs piece : List Char} {start stop : Nat} {c : Char}
    (h : slice? cs start stop = some piece) (hc : c ∈ piece) : c ∈ cs := by
  rw [slice?] at h
  split at h
  · obtain ⟨rest, hrest, hpiece⟩ := Option.bind_eq_some_iff.mp h
    exact mem_of_dropBytes? hrest (mem_of_takeBytes? hpiece hc)
  · simp at h

end PathQuery.Text
