namespace LoadGen.Text

/-- Why a numeral was refused. -/
inductive NumeralError
  | blank
  | badDigit
  | tooLarge
  | tooSmall
  deriving DecidableEq, Repr

def NumeralError.message : NumeralError → String
  | .blank => "cannot parse integer from empty string"
  | .badDigit => "invalid digit found in string"
  | .tooLarge => "number too large to fit in target type"
  | .tooSmall => "number too small to fit in target type"

def digitValue (c : Char) : Nat := c.toNat - '0'.toNat

/-- The number written by a list of decimal digits. -/
def digitsValue (cs : List Char) : Nat := cs.foldl (fun n c => 10 * n + digitValue c) 0

/-- Appends the digits to the number `n`, which may not exceed `limit`. -/
def extendNumber (limit : Nat) (excess : NumeralError) : Nat → List Char → Except NumeralError Nat
  | n, [] => .ok n
  | n, c :: rest =>
    if !c.isDigit then .error .badDigit
    else if limit < 10 * n + digitValue c then .error excess
    else extendNumber limit excess (10 * n + digitValue c) rest

def readDigits (limit : Nat) (excess : NumeralError) : List Char → Except NumeralError Nat
  | [] => .error .badDigit
  | cs => extendNumber limit excess 0 cs

def maxWord : Nat := Nat.pow 2 64 - 1

def maxSigned : Nat := Nat.pow 2 63 - 1

/-- An unsigned word: digits, after an optional plus sign. -/
def readWord (s : String) : Except NumeralError Nat :=
  match s.toList with
  | [] => .error .blank
  | '+' :: cs => readDigits maxWord .tooLarge cs
  | cs => readDigits maxWord .tooLarge cs

/-- A signed word: digits, after an optional sign. -/
def readSigned (s : String) : Except NumeralError Int :=
  match s.toList with
  | [] => .error .blank
  | '-' :: cs => (readDigits (maxSigned + 1) .tooSmall cs).map fun n => -(n : Int)
  | '+' :: cs => (readDigits maxSigned .tooLarge cs).map fun n => (n : Int)
  | cs => (readDigits maxSigned .tooLarge cs).map fun n => (n : Int)

end LoadGen.Text
