import LoadGen.Json.Value

namespace LoadGen

/-- The values found for the named fields of a record. -/
structure Record where
  values : List (String × Json)

namespace Record

/-- Reads a record with the given fields. Other names in an object are passed over; a list may stop
early but may not be longer than the record. -/
def ofJson? (names : List String) : Json → Option Record
  | .object fields => some ⟨names.filterMap fun n => (Dict.find n fields).map fun v => (n, v)⟩
  | .list items => if items.length ≤ names.length then some ⟨names.zip items⟩ else none
  | _ => none

def get? (r : Record) (name : String) : Option Json := Dict.find name r.values

/-- The value of a field that has to be there. -/
def required {α : Type} (r : Record) (name : String) (read : Json → Option α) : Option α :=
  r.get? name >>= read

/-- The value of a field that may be left out, but not be wrong. -/
def orElse {α : Type} (r : Record) (name : String) (read : Json → Option α) (absent : α) :
    Option α :=
  match r.get? name with
  | none => some absent
  | some v => read v

/-- The value of a field that may be left out or be null. -/
def optional {α : Type} (r : Record) (name : String) (read : Json → Option α) :
    Option (Option α) :=
  match r.get? name with
  | none => some none
  | some .null => some none
  | some v => (read v).map some

end Record
end LoadGen
