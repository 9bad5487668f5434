import PathQuery.Number.Decimal
import PathQuery.Path.Segment

/-!
# The trace of an evaluation

`Traced` is a value with the events on the way to it: path texts that were parsed, operators that
met something other than an array, and segments that ended a walk. It is a lawful monad.

`collect`, `keep` and `first?` go through a list. `value_collect`, `value_keep` and `value_first?`
show that their values are those of `List.map`, `List.filter` and `List.find?`. `Event.logged` is an
event as a line of the log.
-/

namespace PathQuery

/-- Something worth noting while a path is followed. -/
inductive Event where
  /-- A path text was taken apart into so many segments. -/
  | parsed (path : String) (segments : Nat)
  /-- An operator was called on a value that is not an array. -/
  | notArray (op : Operator)
  /-- The segment left a falsy value, and the walk ended with it. -/
  | stopped (segment : Segment)
deriving DecidableEq

/-- A value together with what happened on the way to it. -/
structure Traced (α : Type) where
  value : α
  events : List Event := []

namespace Traced

/-- Notes one event. -/
def note (e : Event) : Traced Unit := ⟨(), [e]⟩

/-- Goes on with the value, and appends the events. -/
def andThen {α β : Type} (t : Traced α) (f : α → Traced β) : Traced β :=
  let u := f t.value
  ⟨u.value, t.events ++ u.events⟩

instance : Monad Traced where
  map f t := ⟨f t.value, t.events⟩
  pure a := ⟨a, []⟩
  bind := andThen

variable {α β : Type}

@[simp] theorem value_pure (a : α) : (pure a : Traced α).value = a := rfl

@[simp] theorem events_pure (a : α) : (pure a : Traced α).events = [] := rfl

/-- The value of a sequence is the one of its second part. -/
@[simp] theorem value_bind (t : Traced α) (f : α → Traced β) :
    (t >>= f).value = (f t.value).value := rfl

/-- The events of a sequence are those of its parts, in order. -/
@[simp] theorem events_bind (t : Traced α) (f : α → Traced β) :
    (t >>= f).events = t.events ++ (f t.value).events := rfl

@[simp] theorem value_map (f : α → β) (t : Traced α) : (f <$> t).value = f t.value := rfl

@[simp] theorem events_map (f : α → β) (t : Traced α) : (f <$> t).events = t.events := rfl

@[simp] theorem value_note (e : Event) : (note e).value = () := rfl

@[simp] theorem events_note (e : Event) : (note e).events = [e] := rfl

@[ext] theorem ext {t u : Traced α} (hv : t.value = u.value) (he : t.events = u.events) :
    t = u := by
  cases t
  cases u
  cases hv
  cases he
  rfl

instance : LawfulMonad Traced :=
  LawfulMonad.mk' Traced (fun _ => rfl) (fun _ _ => rfl)
    (fun _ _ _ => Traced.ext rfl (List.append_assoc ..))
    (fun _ _ => rfl) (fun _ _ => rfl) (fun _ _ => rfl)
    (fun _ _ => Traced.ext rfl (List.append_nil _))

/-! ## Going through a list -/

/-- What `f` gives for each element. -/
def collect (f : α → Traced β) : List α → Traced (List β)
  | [] => pure []
  | a :: rest => do
    let b ← f a
    (b :: ·) <$> collect f rest

/-- The elements for which the test holds. -/
def keep (p : α → Traced Bool) : List α → Traced (List α)
  | [] => pure []
  | a :: rest => do
    let holds ← p a
    (fun kept => if holds then a :: kept else kept) <$> keep p rest

/-- The first element for which the test holds. No element behind it is tested. -/
def first? (p : α → Traced Bool) : List α → Traced (Option α)
  | [] => pure none
  | a :: rest => do
    let holds ← p a
    if holds then return some a else first? p rest

theorem value_collect (f : α → Traced β) (as : List α) :
    (collect f as).value = as.map fun a => (f a).value := by
  induction as with
  | nil => rfl
  | cons a rest ih => simp [collect, ih]

theorem value_keep (p : α → Traced Bool) (as : List α) :
    (keep p as).value = as.filter fun a => (p a).value := by
  induction as with
  | nil => rfl
  | cons a rest ih =>
    rw [List.filter_cons, ← ih]
    rfl

theorem value_first? (p : α → Traced Bool) (as : List α) :
    (first? p as).value = as.find? fun a => (p a).value := by
  induction as with
  | nil => rfl
  | cons a rest ih =>
    rw [first?, value_bind, List.find?_cons]
    cases (p a).value with
    | true => rfl
    | false => exact ih

end Traced

/-! ## The log -/

/-- A text in double quotes as the log shows it. Quotes, backslashes and control characters are
escaped. Characters beyond ASCII stand for themselves, also those that a log would give by number
since they do not print or combine with the character before them. -/
def loggedText (s : String) : String :=
  let escape (c : Char) : String :=
    if c = '"' then "\\\""
    else if c = '\\' then "\\\\"
    else if c = '\n' then "\\n"
    else if c = '\r' then "\\r"
    else if c = '\t' then "\\t"
    else if c = '\x00' then "\\0"
    else if c.toNat < 0x20 || c.toNat = 0x7F then
      "\\u\x7b" ++ String.ofList (Nat.toDigits 16 c.toNat) ++ "\x7d"
    else c.toString
  "\"" ++ String.join (s.toList.map escape) ++ "\""

/-- The name of an operator in the log. -/
def Operator.loggedName : Operator → String
  | find => "Find"
  | filter => "Filter"
  | map => "Map"
  | flat => "Flat"

/-- A segment in the log. -/
def Segment.logged : Segment → String
  | index x => "Index(" ++ String.ofList (FloatLayout.logged.text x) ++ ")"
  | key name => "Key(" ++ loggedText name ++ ")"
  | call op args =>
    "Call \x7b op: " ++ op.loggedName ++ ", args: [" ++
      String.intercalate ", " (args.map loggedText) ++ "] \x7d"

/-- An event as a line of the log: its level, then its fields by name. -/
def Event.logged : Event → String
  | parsed path segments =>
    "DEBUG message=parsed path; path=" ++ path ++ "; segments=" ++ toString segments
  | notArray op => "TRACE message=operator applied to a non-array value; operator=" ++ op.name
  | stopped segment => "TRACE message=short-circuit on falsy value; segment=" ++ segment.logged

end PathQuery
