import PathQuery.Json.Fields
import PathQuery.Number.Binary64

/-!
# JSON values

`Value` is a JSON value. Its numbers keep integers and floats apart, and an integer carries the
proof that it fits 64 bits, signed or unsigned (`Number.Fits`).

`isFalsy` holds of null, false, either zero, the empty text and the empty array, and never of an
object. `DistinctKeys` says that no object in the value has a key twice.
-/

namespace PathQuery

/-- The integers that a JSON number keeps exactly. -/
def Number.Fits (i : Int) : Prop := -2 ^ 63 ≤ i ∧ i < 2 ^ 64

instance (i : Int) : Decidable (Number.Fits i) := inferInstanceAs (Decidable (_ ∧ _))

/-- A JSON number: an integer that fits, or a finite float. -/
inductive Number where
  | int (i : Int) (fits : Number.Fits i)
  | float (x : Binary64)
deriving DecidableEq

/-- A JSON document or a part of one. -/
inductive Value where
  | null
  | bool (b : Bool)
  | num (n : Number)
  | str (s : String)
  | arr (items : List Value)
  | obj (fields : List (String × Value))

/-- Whether the number is zero, of either kind and sign. -/
def Number.isZero : Number → Bool
  | .int i _ => i == 0
  | .float x => x.isZero

namespace Value

instance : Inhabited Value := ⟨null⟩

/-- Whether a walk stops at this value. -/
def isFalsy : Value → Bool
  | null => true
  | bool b => !b
  | num n => n.isZero
  | str s => s.isEmpty
  | arr items => items.isEmpty
  | obj _ => false

/-- The value of a field; none where the value is not an object or lacks the field. -/
def field? (key : String) : Value → Option Value
  | obj fields => Fields.get? key fields
  | _ => none

/-- The element at an index; none where the value is not an array, or the index is negative,
fractional or beyond the end. -/
def item? (index : Binary64) : Value → Option Value
  | arr items => index.toNat?.bind (items[·]?)
  | _ => none

/-! ## Equality -/

mutual
/-- Equality of values is decided by recursion on both. -/
def decEq : (v w : Value) → Decidable (v = w)
  | null, null => isTrue rfl
  | bool a, bool b => decidable_of_iff (a = b) (by simp)
  | num a, num b => decidable_of_iff (a = b) (by simp)
  | str a, str b => decidable_of_iff (a = b) (by simp)
  | arr a, arr b => @decidable_of_iff _ (a = b) (by simp) (decEqItems a b)
  | obj a, obj b => @decidable_of_iff _ (a = b) (by simp) (decEqFields a b)
  | null, bool _ | null, num _ | null, str _ | null, arr _ | null, obj _
  | bool _, null | bool _, num _ | bool _, str _ | bool _, arr _ | bool _, obj _
  | num _, null | num _, bool _ | num _, str _ | num _, arr _ | num _, obj _
  | str _, null | str _, bool _ | str _, num _ | str _, arr _ | str _, obj _
  | arr _, null | arr _, bool _ | arr _, num _ | arr _, str _ | arr _, obj _
  | obj _, null | obj _, bool _ | obj _, num _ | obj _, str _ | obj _, arr _ =>
    isFalse nofun

/-- Equality of lists of elements. -/
def decEqItems : (vs ws : List Value) → Decidable (vs = ws)
  | [], [] => isTrue rfl
  | v :: vs, w :: ws =>
    @decidable_of_iff _ (v = w ∧ vs = ws) (by simp)
      (@instDecidableAnd _ _ (decEq v w) (decEqItems vs ws))
  | [], _ :: _ => isFalse nofun
  | _ :: _, [] => isFalse nofun

/-- Equality of lists of fields, which depends on their order. -/
def decEqFields : (fs gs : List (String × Value)) → Decidable (fs = gs)
  | [], [] => isTrue rfl
  | (k, v) :: fs, (l, w) :: gs =>
    @decidable_of_iff _ (k = l ∧ v = w ∧ fs = gs) (by simp [and_assoc])
      (@instDecidableAnd _ _ (inferInstance : Decidable (k = l))
        (@instDecidableAnd _ _ (decEq v w) (decEqFields fs gs)))
  | [], _ :: _ => isFalse nofun
  | _ :: _, [] => isFalse nofun
end

instance : DecidableEq Value := decEq

/-! ## Distinct keys -/

mutual
/-- No object anywhere in the value has a key twice. Every value that is read from text is so. -/
def DistinctKeys : Value → Prop
  | arr items => DistinctKeysItems items
  | obj fields => Fields.Distinct fields ∧ DistinctKeysFields fields
  | _ => True

/-- All elements have distinct keys. -/
def DistinctKeysItems : List Value → Prop
  | [] => True
  | v :: rest => DistinctKeys v ∧ DistinctKeysItems rest

/-- The values of all fields have distinct keys. -/
def DistinctKeysFields : List (String × Value) → Prop
  | [] => True
  | (_, v) :: rest => DistinctKeys v ∧ DistinctKeysFields rest
end

end Value

end PathQuery
