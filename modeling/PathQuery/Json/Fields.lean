/-!
# Fields in order of insertion

`Fields.insert` replaces the value of a key that is there and appends a new key. Objects, tables of
results and mappings are all built by `Fields.ofPairs`, which folds `insert` over a list of pairs.

Keys are distinct by the predicate `Distinct` rather than by the type, since values nest their own
fields. `distinct_insert` keeps it, and `distinct_ofPairs` establishes it.
-/

namespace PathQuery

/-- Keys with their values, in order. -/
abbrev Fields (α : Type) := List (String × α)

namespace Fields

variable {α : Type}

/-- The keys, in order. -/
def keys (fields : Fields α) : List String := fields.map Prod.fst

/-- No key occurs twice. -/
def Distinct (fields : Fields α) : Prop := fields.keys.Nodup

/-- The value of the first field with this key. -/
def get? (key : String) : Fields α → Option α
  | [] => none
  | (k, v) :: rest => if k = key then some v else get? key rest

/-- The value of the first field with this key, and the other fields. -/
def take? (key : String) : Fields α → Option (α × Fields α)
  | [] => none
  | (k, v) :: rest =>
    if k = key then some (v, rest)
    else (take? key rest).map fun taken => (taken.1, (k, v) :: taken.2)

/-- Gives the key its value: in place where the key is there already, else as the last field. -/
def insert (key : String) (value : α) : Fields α → Fields α
  | [] => [(key, value)]
  | (k, v) :: rest => if k = key then (k, value) :: rest else (k, v) :: insert key value rest

/-- The fields that result from inserting the pairs one after the other. -/
def ofPairs (pairs : List (String × α)) : Fields α :=
  pairs.foldl (fun fields pair => fields.insert pair.1 pair.2) []

/-! ## Looking up -/

@[simp] theorem get?_nil (key : String) : get? key ([] : Fields α) = none := rfl

theorem get?_cons (key k : String) (v : α) (rest : Fields α) :
    get? key ((k, v) :: rest) = if k = key then some v else get? key rest := rfl

/-- Taking a field out finds the value that looking it up finds. -/
theorem take?_map_fst (key : String) (fields : Fields α) :
    (take? key fields).map Prod.fst = get? key fields := by
  induction fields with
  | nil => rfl
  | cons field rest ih =>
    rw [take?, get?]
    split
    · rfl
    · rw [← ih, Option.map_map]
      rfl

/-- A look-up fails for keys that are not there, and only for these. -/
theorem get?_eq_none_iff {key : String} {fields : Fields α} :
    get? key fields = none ↔ key ∉ fields.keys := by
  induction fields with
  | nil => simp [keys]
  | cons field rest ih =>
    rw [get?, keys, List.map_cons, List.mem_cons, ← keys]
    by_cases h : field.1 = key
    · simp [h]
    · rw [if_neg h, ih]
      simp [Ne.symm h]

theorem mem_of_get? {key : String} {v : α} {fields : Fields α} (h : get? key fields = some v) :
    (key, v) ∈ fields := by
  induction fields with
  | nil => simp at h
  | cons field rest ih =>
    obtain ⟨k, w⟩ := field
    rw [get?_cons] at h
    split at h
    · rename_i hk
      cases h
      subst hk
      exact List.mem_cons_self ..
    · exact List.mem_cons_of_mem _ (ih h)

/-! ## Inserting -/

/-- After an insertion the key has the new value, and every other key its old one. -/
theorem get?_insert (key k : String) (v : α) (fields : Fields α) :
    get? key (fields.insert k v) = if k = key then some v else get? key fields := by
  induction fields with
  | nil => rfl
  | cons field rest ih =>
    obtain ⟨k', w⟩ := field
    rw [insert]
    by_cases hk : k' = k
    · subst hk
      simp only [if_pos, get?_cons]
      split <;> rfl
    · rw [if_neg hk, get?_cons, ih, get?_cons]
      by_cases hkey : k' = key
      · have : k ≠ key := fun e => hk (hkey.trans e.symm)
        simp [hkey, this]
      · simp [hkey]

/-- Inserting keeps the keys and their order, and puts a new key last. -/
theorem keys_insert (k : String) (v : α) (fields : Fields α) :
    (fields.insert k v).keys = if k ∈ fields.keys then fields.keys else fields.keys ++ [k] := by
  induction fields with
  | nil => simp [insert, keys]
  | cons field rest ih =>
    obtain ⟨k', w⟩ := field
    rw [insert]
    by_cases hk : k' = k
    · subst hk
      simp [keys]
    · rw [if_neg hk]
      simp only [keys, List.map_cons, List.mem_cons, Ne.symm hk, false_or] at ih ⊢
      rw [ih]
      by_cases hm : k ∈ List.map Prod.fst rest <;> simp [hm]

theorem distinct_insert {k : String} {v : α} {fields : Fields α} (h : fields.Distinct) :
    (fields.insert k v).Distinct := by
  rw [Distinct, keys_insert]
  split
  · exact h
  · rename_i hk
    rw [List.nodup_append]
    refine ⟨h, by simp, ?_⟩
    intro a ha b hb
    rw [List.mem_singleton] at hb
    exact fun e => hk (hb ▸ e ▸ ha)

theorem insert_of_not_mem {k : String} {fields : Fields α} (h : k ∉ fields.keys) (v : α) :
    fields.insert k v = fields ++ [(k, v)] := by
  induction fields with
  | nil => rfl
  | cons field rest ih =>
    rw [keys, List.map_cons, List.mem_cons, not_or, ← keys] at h
    rw [insert, if_neg (Ne.symm h.1), ih h.2, List.cons_append]

theorem distinct_ofPairs (pairs : List (String × α)) : (ofPairs pairs).Distinct := by
  have step : ∀ (pairs : List (String × α)) (fields : Fields α), fields.Distinct →
      (pairs.foldl (fun fields pair => fields.insert pair.1 pair.2) fields).Distinct := by
    intro pairs
    induction pairs with
    | nil => exact fun _ h => h
    | cons pair rest ih => exact fun _ h => ih _ (distinct_insert h)
  exact step pairs [] (by simp [Distinct, keys])

/-- Pairs without a key that comes again are the fields that they give. -/
theorem ofPairs_eq_self {pairs : List (String × α)} (h : Distinct pairs) :
    ofPairs pairs = pairs := by
  have step : ∀ (pairs : List (String × α)) (fields : Fields α), Distinct (fields ++ pairs) →
      pairs.foldl (fun fields pair => fields.insert pair.1 pair.2) fields = fields ++ pairs := by
    intro pairs
    induction pairs with
    | nil => exact fun fields _ => (List.append_nil fields).symm
    | cons pair rest ih =>
      intro fields hdistinct
      have hnew : pair.1 ∉ fields.keys := by
        rw [Distinct, keys, List.map_append, List.nodup_append] at hdistinct
        exact fun hmem => hdistinct.2.2 _ hmem _ List.mem_cons_self rfl
      rw [List.append_cons] at hdistinct
      rw [List.foldl_cons, insert_of_not_mem hnew, ih _ hdistinct]
      simp
  exact step pairs [] h

/-! ## Values of the fields -/

variable {P : α → Prop}

/-- A property of the old values and the new one holds of all values afterwards. -/
theorem forall_mem_insert {key : String} {value : α} {fields : Fields α} (hvalue : P value)
    (h : ∀ field ∈ fields, P field.2) : ∀ field ∈ fields.insert key value, P field.2 := by
  induction fields with
  | nil => exact List.forall_mem_singleton.mpr hvalue
  | cons first rest ih =>
    obtain ⟨k, v⟩ := first
    rw [List.forall_mem_cons] at h
    rw [insert]
    split
    · exact List.forall_mem_cons.mpr ⟨hvalue, h.2⟩
    · exact List.forall_mem_cons.mpr ⟨h.1, ih h.2⟩

/-- The values of the fields are among the values that were inserted. -/
theorem forall_mem_ofPairs {pairs : List (String × α)} (h : ∀ pair ∈ pairs, P pair.2) :
    ∀ field ∈ ofPairs pairs, P field.2 := by
  have step : ∀ (pairs : List (String × α)) (fields : Fields α), (∀ pair ∈ pairs, P pair.2) →
      (∀ field ∈ fields, P field.2) →
        ∀ field ∈ pairs.foldl (fun fields pair => fields.insert pair.1 pair.2) fields,
          P field.2 := by
    intro pairs
    induction pairs with
    | nil => exact fun _ _ hfields => hfields
    | cons pair rest ih =>
      intro fields hpairs hfields
      rw [List.forall_mem_cons] at hpairs
      exact ih _ hpairs.2 (forall_mem_insert hpairs.1 hfields)
  exact step pairs [] h nofun

end Fields

end PathQuery
