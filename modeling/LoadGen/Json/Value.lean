import LoadGen.Dict

namespace LoadGen

/-- A JSON value. The fields of an object are listed by increasing name. -/
inductive Json
  | null
  | bool (b : Bool)
  | int (n : Int)
  | float (x : Float)
  | text (s : String)
  | list (items : List Json)
  | object (fields : List (String × Json))
  deriving Inhabited

namespace Json

/-- The object with the given fields; of two fields with one name the later stays. -/
def ofFields (fields : List (String × Json)) : Json := .object (Dict.ofList fields).entries

def ofNat (n : Nat) : Json := .int (Int.ofNat n)

def ofOption {α : Type} (f : α → Json) : Option α → Json
  | none => .null
  | some a => f a

def texts (items : List String) : Json := .list (items.map .text)

/-- Whether a whole number fits a signed or an unsigned 64-bit word. -/
def fitsWord (n : Int) : Bool := -(Int.pow 2 63) ≤ n && n < Int.pow 2 64

def word? : Json → Option Nat
  | .int n => if 0 ≤ n ∧ n < Int.pow 2 64 then some n.toNat else none
  | _ => none

def bool? : Json → Option Bool
  | .bool b => some b
  | _ => none

def text? : Json → Option String
  | .text s => some s
  | _ => none

def list? : Json → Option (List Json)
  | .list items => some items
  | _ => none

/-- The double next to a whole number of at most 64 bits. -/
def floatOfInt (n : Int) : Float :=
  if 0 ≤ n then n.toNat.toUInt64.toFloat else -n.natAbs.toUInt64.toFloat

def float? : Json → Option Float
  | .int n => some (floatOfInt n)
  | .float x => some x
  | _ => none

def field? (name : String) : Json → Option Json
  | .object fields => Dict.find name fields
  | _ => none

end Json
end LoadGen
