import Mathlib.Data.List.Induction
import PathQuery.Proofs.Json.KeyOrder

/-!
# Fields from pairs

`Fields.ofPairs` inserts pairs one after the other.

* `keys_ofPairs`: the keys are the distinct keys of the pairs, in the order in which they first
  come.
* `get?_ofPairs`: a key has the value that comes with it last.
* `ofPairs_mapValues`: inserting looks at keys only, so values may be put into another form before
  or afterwards. Pairs may also be collapsed twice (`ofPairs_mapValues_ofPairs`).
-/

namespace PathQuery.Fields

variable {α β : Type}

/-! ## One pair more -/

theorem ofPairs_concat (pairs : List (String × α)) (key : String) (value : α) :
    ofPairs (pairs ++ [(key, value)]) = (ofPairs pairs).insert key value := by
  rw [ofPairs, List.foldl_append]
  rfl

/-- The key of a further pair is a key already, or comes behind all the others. -/
theorem keys_ofPairs (pairs : List (String × α)) :
    (ofPairs pairs).keys = (pairs.map Prod.fst).eraseDups := by
  -- the pair that is inserted last stands at the end of the list
  induction pairs using List.reverseRecOn with
  | nil => rfl
  | append_singleton pairs pair ih =>
    obtain ⟨key, value⟩ := pair
    rw [ofPairs_concat, keys_insert, ih, List.map_append, List.map_singleton,
      List.eraseDups_append, List.cons_removeAll]
    simp only [List.mem_eraseDups]
    by_cases hkey : key ∈ pairs.map Prod.fst
    · simp [hkey]
    · simp [hkey, List.eraseDups_cons]

/-- A key has the value of its last pair. -/
theorem get?_ofPairs (key : String) (pairs : List (String × α)) :
    (ofPairs pairs).get? key = (pairs.findRev? (·.1 = key)).map Prod.snd := by
  rw [List.findRev?_eq_find?_reverse]
  induction pairs using List.reverseRecOn with
  | nil => rfl
  | append_singleton pairs pair ih =>
    obtain ⟨last, value⟩ := pair
    rw [ofPairs_concat, get?_insert, ih, List.reverse_concat, List.find?_cons]
    by_cases hkey : last = key <;> simp [hkey]

/-- The pairs are collapsed to their distinct keys, each with the last value that is given for it.
-/
theorem ofPairs_eq_map {pairs : List (String × α)} {valueOf : String → α}
    (h : ∀ key ∈ pairs.map Prod.fst,
      (pairs.findRev? (·.1 = key)).map Prod.snd = some (valueOf key)) :
    ofPairs pairs = (pairs.map Prod.fst).eraseDups.map fun key => (key, valueOf key) := by
  have hget : ∀ key ∈ (ofPairs pairs).keys, (ofPairs pairs).get? key = some (valueOf key) := by
    intro key hkey
    rw [keys_ofPairs, List.mem_eraseDups] at hkey
    rw [get?_ofPairs, h key hkey]
  rw [← keys_ofPairs]
  exact eq_map_keys (distinct_ofPairs pairs) hget

/-! ## Values in another form -/

section

variable (f : α → β)

/-- The fields with their values in another form. -/
def mapValues (fields : Fields α) : Fields β := fields.map fun field => (field.1, f field.2)

theorem keys_mapValues (fields : Fields α) : (fields.mapValues f).keys = fields.keys := by
  rw [keys, mapValues, List.map_map]
  rfl

theorem get?_mapValues (key : String) (fields : Fields α) :
    (fields.mapValues f).get? key = (fields.get? key).map f := by
  induction fields with
  | nil => rfl
  | cons field rest ih =>
    obtain ⟨k, v⟩ := field
    have hcons : (mapValues f ((k, v) :: rest)).get? key =
        if k = key then some (f v) else (mapValues f rest).get? key := rfl
    rw [hcons, ih, get?_cons]
    split <;> rfl

theorem insert_mapValues (key : String) (value : α) (fields : Fields α) :
    (fields.mapValues f).insert key (f value) = (fields.insert key value).mapValues f := by
  induction fields with
  | nil => rfl
  | cons field rest ih =>
    obtain ⟨k, v⟩ := field
    rw [insert]
    have hinsert : (mapValues f ((k, v) :: rest)).insert key (f value) =
        if k = key then (k, f value) :: mapValues f rest
        else (k, f v) :: (mapValues f rest).insert key (f value) := rfl
    rw [hinsert, ih]
    split <;> rfl

/-- Pairs may be collapsed before or after their values are put into another form. -/
theorem ofPairs_mapValues (pairs : List (String × α)) :
    ofPairs (mapValues f pairs) = (ofPairs pairs).mapValues f := by
  induction pairs using List.reverseRecOn with
  | nil => rfl
  | append_singleton pairs pair ih =>
    obtain ⟨key, value⟩ := pair
    have hconcat : mapValues f (pairs ++ [(key, value)]) =
        mapValues f pairs ++ [(key, f value)] := List.map_append
    rw [hconcat, ofPairs_concat, ofPairs_concat, ih, insert_mapValues]

/-- Pairs may be collapsed before their values are put into another form, and then again. -/
theorem ofPairs_mapValues_ofPairs (pairs : List (String × α)) :
    ofPairs (mapValues f (ofPairs pairs)) = ofPairs (mapValues f pairs) := by
  have hdistinct : (mapValues f (ofPairs pairs)).Distinct := by
    rw [Distinct, keys_mapValues]
    exact distinct_ofPairs pairs
  rw [ofPairs_eq_self hdistinct, ofPairs_mapValues]

/-- Only the last values are left. So the collapsed fields are values in another form if the last
values are. -/
theorem ofPairs_eq_mapValues_iff [Inhabited α] {pairs : List (String × β)} {fields : Fields α} :
    ofPairs pairs = fields.mapValues f ↔
      ∃ valueOf : String → α,
        (∀ key ∈ pairs.map Prod.fst,
          (pairs.findRev? (·.1 = key)).map Prod.snd = some (f (valueOf key))) ∧
        fields = (pairs.map Prod.fst).eraseDups.map fun key => (key, valueOf key) := by
  constructor
  · -- each key has the value that the fields have for it
    intro h
    have hkeys : fields.keys = (pairs.map Prod.fst).eraseDups := by
      rw [← keys_mapValues f, ← h, keys_ofPairs]
    have hdistinct : fields.Distinct := by
      rw [Distinct, hkeys, ← keys_ofPairs]
      exact distinct_ofPairs pairs
    have hget : ∀ key ∈ fields.keys, fields.get? key = some ((fields.get? key).getD default) := by
      intro key hkey
      cases hvalue : fields.get? key with
      | none => exact absurd hkey (get?_eq_none_iff.mp hvalue)
      | some value => rfl
    refine ⟨fun key => (fields.get? key).getD default, ?_, ?_⟩
    · intro key hkey
      rw [← List.mem_eraseDups, ← hkeys] at hkey
      rw [← get?_ofPairs, h, get?_mapValues, hget key hkey]
      rfl
    · rw [← hkeys]
      exact eq_map_keys hdistinct hget
  · rintro ⟨valueOf, hlast, rfl⟩
    rw [ofPairs_eq_map hlast, mapValues, List.map_map]
    rfl

end

end PathQuery.Fields
