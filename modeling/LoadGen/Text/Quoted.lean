import LoadGen.Text.Graphic

namespace LoadGen.Text

/-- A code point as an escape, in lower-case hexadecimal digits. -/
def escapeCode (c : Char) : List Char :=
  ['\\', 'u', '\x7b'] ++ Nat.toDigits 16 c.toNat ++ ['\x7d']

/-- How one character stands inside double quotes. -/
def quoteChar (c : Char) : List Char :=
  if c = '"' then ['\\', '"']
  else if c = '\\' then ['\\', '\\']
  else if c = '\n' then ['\\', 'n']
  else if c = '\r' then ['\\', 'r']
  else if c = '\t' then ['\\', 't']
  else if c = '\x00' then ['\\', '0']
  else if isGraphic c then [c]
  else escapeCode c

def quote (s : String) : String := String.ofList ('"' :: s.toList.flatMap quoteChar ++ ['"'])

def commas (items : List String) : String := String.intercalate ", " items

def listForm (items : List String) : String := "[" ++ commas items ++ "]"

def optionForm : Option String → String
  | none => "None"
  | some s => "Some(" ++ s ++ ")"

/-- A table: each key with its value, in the given order. -/
def tableForm (pairs : List (String × String)) : String :=
  "\x7b" ++ commas (pairs.map fun (k, v) => k ++ ": " ++ v) ++ "\x7d"

/-- A record: its name, then each field with its value. -/
def recordForm (name : String) (fields : List (String × String)) : String :=
  name ++ " \x7b " ++ commas (fields.map fun (k, v) => k ++ ": " ++ v) ++ " \x7d"

def boolForm (b : Bool) : String := if b then "true" else "false"

end LoadGen.Text
