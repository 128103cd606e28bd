namespace LoadGen

/-- A whole number or a text. -/
inductive Value
  | int (n : Int)
  | text (s : String)
  deriving DecidableEq, Repr

def Value.shown : Value → String
  | .int n => toString n
  | .text s => s

end LoadGen
