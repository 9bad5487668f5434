import Mathlib.Data.List.Forall2
import Mathlib.Data.List.Perm.Basic
import PathQuery.Proofs.Json.Reading
import PathQuery.Proofs.Json.Parts

/-!
# Values up to the order of their keys

* `Value.OrderEquiv`: one value becomes the other by reordering the fields of objects, at any depth.
* `OrderEquiv.field?`: where keys are distinct, a look-up does not see the order.
* `OrderEquiv.eq_or_isWide`: values that are equivalent and not equal are wide, both of them. So
  renderings without a comma do not see the order either (`OrderEquiv.render_eq`).
-/

namespace PathQuery

/-! ## Fields -/

namespace Fields

variable {α : Type} {R : α → α → Prop}

/-- The same key with related values. -/
inductive Match (R : α → α → Prop) : String × α → String × α → Prop where
  | intro (key : String) {v w : α} : R v w → Match R (key, v) (key, w)

theorem keys_eq_of_match {fs hs : Fields α} (h : List.Forall₂ (Match R) fs hs) :
    fs.keys = hs.keys := by
  induction h with
  | nil => rfl
  | cons hmatch _ ih =>
    obtain ⟨key, -⟩ := hmatch
    rw [keys, keys, List.map_cons, List.map_cons, ← keys, ← keys, ih]

/-- A look-up in fields that match gives related values, or none in both. -/
theorem rel_get?_of_match {fs hs : Fields α} (h : List.Forall₂ (Match R) fs hs) (key : String) :
    Option.Rel R (get? key fs) (get? key hs) := by
  induction h with
  | nil => exact .none
  | cons hmatch _ ih =>
    obtain ⟨k, hvalue⟩ := hmatch
    rw [get?_cons, get?_cons]
    split
    · exact .some hvalue
    · exact ih

/-- Where keys are distinct, a look-up finds each field. -/
theorem get?_eq_some_iff {fields : Fields α} (hd : fields.Distinct) {key : String} {v : α} :
    get? key fields = some v ↔ (key, v) ∈ fields := by
  refine ⟨mem_of_get?, fun hmem => ?_⟩
  induction fields with
  | nil => cases hmem
  | cons field rest ih =>
    obtain ⟨k, w⟩ := field
    rw [Distinct, keys, List.map_cons, List.nodup_cons] at hd
    rw [get?_cons]
    rcases List.mem_cons.mp hmem with heq | hrest
    · obtain ⟨rfl, rfl⟩ := Prod.mk.inj heq
      exact if_pos rfl
    · have hne : k ≠ key := by
        rintro rfl
        exact hd.1 (List.mem_map.mpr ⟨(k, v), hrest, rfl⟩)
      rw [if_neg hne]
      exact ih hd.2 hrest

/-- Fields with distinct keys are their keys, each with the value that looking it up gives. -/
theorem eq_map_keys {fields : Fields α} (hd : fields.Distinct) {valueOf : String → α}
    (h : ∀ key ∈ fields.keys, fields.get? key = some (valueOf key)) :
    fields = fields.keys.map fun key => (key, valueOf key) := by
  have hfield : ∀ field ∈ fields, field = (field.1, valueOf field.1) := by
    rintro ⟨key, value⟩ hmem
    have hget : fields.get? key = some value := (get?_eq_some_iff hd).mpr hmem
    rw [h key (List.mem_map_of_mem hmem), Option.some.injEq] at hget
    rw [hget]
  rw [keys, List.map_map]
  exact (List.map_id fields).symm.trans (List.map_congr_left hfield)

theorem Distinct.perm {hs gs : Fields α} (hd : hs.Distinct) (h : hs.Perm gs) : gs.Distinct :=
  (h.map Prod.fst).nodup_iff.mp hd

/-- Where keys are distinct, a look-up does not see the order of the fields. -/
theorem get?_perm {hs gs : Fields α} (h : hs.Perm gs) (hd : hs.Distinct) (key : String) :
    get? key hs = get? key gs := by
  ext v
  rw [get?_eq_some_iff hd, get?_eq_some_iff (hd.perm h), h.mem_iff]

end Fields

namespace Value

/-! ## Equivalence -/

/-- Equal but for the order of the fields of objects, at any depth. -/
inductive OrderEquiv : Value → Value → Prop where
  | null : OrderEquiv null null
  | bool (b : Bool) : OrderEquiv (bool b) (bool b)
  | num (n : Number) : OrderEquiv (num n) (num n)
  | str (s : String) : OrderEquiv (str s) (str s)
  | arr {vs ws : List Value} : List.Forall₂ OrderEquiv vs ws → OrderEquiv (arr vs) (arr ws)
  /-- Field by field in some order of the second object's fields. -/
  | obj {fs hs gs : List (String × Value)} :
    List.Forall₂ (Fields.Match OrderEquiv) fs hs → hs.Perm gs → OrderEquiv (obj fs) (obj gs)

namespace OrderEquiv

theorem refl (v : Value) : v.OrderEquiv v := by
  induction v with
  | null => exact .null
  | bool b => exact .bool b
  | num n => exact .num n
  | str s => exact .str s
  | arr items ih => exact .arr (List.forall₂_same.mpr ih)
  | obj fields ih =>
    have hfields : List.Forall₂ (Fields.Match OrderEquiv) fields fields :=
      List.forall₂_same.mpr fun field hfield => .intro field.1 (ih field hfield)
    exact .obj hfields (List.Perm.refl fields)

/-- Objects whose fields are a permutation of each other. -/
theorem of_perm {fs gs : List (String × Value)} (h : fs.Perm gs) :
    (Value.obj fs).OrderEquiv (.obj gs) :=
  .obj (List.forall₂_same.mpr fun field _ => .intro field.1 (refl field.2)) h

/-- Induction over two equivalent values at once. -/
@[elab_as_elim]
theorem induct {motive : ∀ v w : Value, v.OrderEquiv w → Prop} (null : motive .null .null .null)
    (bool : ∀ b, motive (.bool b) (.bool b) (.bool b))
    (num : ∀ n, motive (.num n) (.num n) (.num n)) (str : ∀ s, motive (.str s) (.str s) (.str s))
    (arr : ∀ vs ws (h : (Value.arr vs).OrderEquiv (.arr ws)),
      List.Forall₂ (fun v w => ∃ h, motive v w h) vs ws → motive (.arr vs) (.arr ws) h)
    (obj : ∀ fs hs gs (h : (Value.obj fs).OrderEquiv (.obj gs)),
      List.Forall₂ (Fields.Match fun v w => ∃ h, motive v w h) fs hs → hs.Perm gs →
        motive (.obj fs) (.obj gs) h)
    {v w : Value} (h : v.OrderEquiv w) : motive v w h := by
  -- `OrderEquiv` nests through `Forall₂`, so the induction is on the value
  induction v generalizing w with
  | null =>
    cases h
    exact null
  | bool b =>
    cases h
    exact bool b
  | num n =>
    cases h
    exact num n
  | str s =>
    cases h
    exact str s
  | arr vs ih =>
    cases h with
    | @arr _ ws hitems =>
      refine arr vs ws _ (((List.forall₂_and_left vs ws).mpr ⟨ih, hitems⟩).imp ?_)
      intro v w hvw
      exact ⟨hvw.2, hvw.1 hvw.2⟩
  | obj fs ih =>
    cases h with
    | @obj _ hs gs hfields hperm =>
      refine obj fs hs gs _ (((List.forall₂_and_left fs hs).mpr ⟨ih, hfields⟩).imp ?_) hperm
      rintro f h ⟨hvalue, ⟨key, hequiv⟩⟩
      exact .intro key ⟨hequiv, hvalue hequiv⟩

theorem symm {v w : Value} (h : v.OrderEquiv w) : w.OrderEquiv v := by
  induction h using induct with
  | null | bool | num | str => exact refl _
  | arr vs ws _ hitems => exact .arr (hitems.imp fun _ _ ⟨_, hback⟩ => hback).flip
  | obj fs hs gs _ hfields hperm =>
    have hback : List.Forall₂ (Fields.Match OrderEquiv) hs fs := by
      refine (hfields.imp ?_).flip
      rintro f h ⟨key, -, hback⟩
      exact .intro key hback
    -- the fields of the first object, brought into the order of the second one
    obtain ⟨ks, hks, hperm'⟩ := List.perm_comp_forall₂ hperm.symm hback
    exact .obj hks hperm'

theorem forall₂_trans {α : Type} {R S : α → α → Prop} (hS : ∀ a b, S a b → ∀ c, R b c → R a c)
    {as bs cs : List α} (h : List.Forall₂ S as bs) (h' : List.Forall₂ R bs cs) :
    List.Forall₂ R as cs := by
  induction h generalizing cs with
  | nil => exact h'
  | cons hhead _ ih =>
    cases h' with
    | cons hhead' htail' => exact .cons (hS _ _ hhead _ hhead') (ih htail')

theorem trans {u v w : Value} (h : u.OrderEquiv v) (h' : v.OrderEquiv w) : u.OrderEquiv w := by
  induction h using induct generalizing w with
  | null | bool | num | str => exact h'
  | arr us vs _ hitems =>
    cases h' with
    | arr hitems' => exact .arr (forall₂_trans (fun _ _ ⟨_, hon⟩ _ h' => hon h') hitems hitems')
  | obj fs hs gs _ hfields hperm =>
    cases h' with
    | @obj _ ks js hfields' hperm' =>
      obtain ⟨ms, hms, hperm''⟩ := List.perm_comp_forall₂ hperm hfields'
      refine .obj (forall₂_trans ?_ hfields hms) (hperm''.trans hperm')
      rintro f h ⟨key, -, hon⟩ m ⟨_, hequiv'⟩
      exact .intro key (hon hequiv')

theorem equivalence : Equivalence OrderEquiv := ⟨refl, symm, trans⟩

/-- Whether a value is falsy does not depend on the order of fields. -/
theorem isFalsy_eq {v w : Value} (h : v.OrderEquiv w) : v.isFalsy = w.isFalsy := by
  cases h with
  | arr hitems => cases hitems <;> rfl
  | _ => rfl

/-- Equivalent objects have equivalent values at every key. -/
theorem field? {v w : Value} (h : v.OrderEquiv w) (hd : v.DistinctKeys) (key : String) :
    Option.Rel OrderEquiv (v.field? key) (w.field? key) := by
  cases h with
  | @obj fs hs gs hmatch hperm =>
    have hdistinct : Fields.Distinct hs := by
      rw [Fields.Distinct, ← Fields.keys_eq_of_match hmatch]
      exact (distinctKeys_obj.mp hd).1
    rw [Value.field?, Value.field?, ← Fields.get?_perm hperm hdistinct]
    exact Fields.rel_get?_of_match hmatch key
  | _ => exact .none

/-! ## Where the order shows -/

/-- Two lists that differ somewhere hold something with the property. -/
theorem eq_or_exists_of_forall₂ {α : Type} {P : α → Prop} {as bs : List α}
    (h : List.Forall₂ (fun a b => a = b ∨ P a ∧ P b) as bs) :
    as = bs ∨ (∃ a ∈ as, P a) ∧ ∃ b ∈ bs, P b := by
  induction h with
  | nil => exact .inl rfl
  | @cons a b as bs hhead _ ih =>
    rcases hhead with rfl | ⟨ha, hb⟩
    · rcases ih with rfl | ⟨⟨a', ha', hP⟩, b', hb', hP'⟩
      · exact .inl rfl
      · exact .inr ⟨⟨a', List.mem_cons_of_mem _ ha', hP⟩, b', List.mem_cons_of_mem _ hb', hP'⟩
    · exact .inr ⟨⟨a, List.mem_cons_self, ha⟩, b, List.mem_cons_self, hb⟩

/-- Only a wide value can be reordered. -/
theorem eq_or_isWide {v w : Value} (h : v.OrderEquiv w) : v = w ∨ v.IsWide ∧ w.IsWide := by
  induction h using induct with
  | null | bool | num | str => exact .inl rfl
  | arr vs ws _ hitems =>
    rcases eq_or_exists_of_forall₂ (hitems.imp fun _ _ ⟨_, hdiff⟩ => hdiff) with
      rfl | ⟨⟨v, hv, hwide⟩, w, hw, hwide'⟩
    · exact .inl rfl
    · exact .inr ⟨hwide.item hv, hwide'.item hw⟩
  | obj fs hs gs _ hfields hperm =>
    have hdiff : List.Forall₂ (fun f h => f = h ∨ f.2.IsWide ∧ h.2.IsWide) fs hs := by
      refine hfields.imp ?_
      rintro f h ⟨key, -, rfl | hwide⟩
      · exact .inl rfl
      · exact .inr hwide
    rcases eq_or_exists_of_forall₂ hdiff with rfl | ⟨⟨f, hf, hwide⟩, h, hh, hwide'⟩
    · -- only a list of two fields can be brought into another order
      by_cases hlength : 2 ≤ fs.length
      · have hlength' : 2 ≤ gs.length := hperm.length_eq ▸ hlength
        exact .inr ⟨.of_length hlength, .of_length hlength'⟩
      · left
        match fs, hlength, hperm with
        | [], _, hperm => rw [List.nil_perm.mp hperm]
        | [f], _, hperm => rw [List.singleton_perm.mp hperm]
        | _ :: _ :: _, hlength, _ => simp at hlength
    · exact .inr ⟨hwide.field hf, hwide'.field (hperm.mem_iff.mp hh)⟩

/-- A rendering without a comma does not depend on the order of keys. -/
theorem render_eq {v w : Value} (h : v.OrderEquiv w) (hc : ',' ∉ v.render ∨ ',' ∉ w.render) :
    v.render = w.render := by
  rcases h.eq_or_isWide with rfl | ⟨hv, hw⟩
  · rfl
  · rcases hc with hc | hc
    · exact absurd hv.comma_mem_render hc
    · exact absurd hw.comma_mem_render hc

end OrderEquiv

end Value

end PathQuery
