namespace LoadGen.Text

def splitLines : List Char → List (List Char)
  | [] => []
  | '\n' :: rest => [] :: splitLines rest
  | '\r' :: '\n' :: rest => [] :: splitLines rest
  | c :: rest =>
    match splitLines rest with
    | [] => [[c]]
    | line :: later => (c :: line) :: later

/-- The lines of a text, without their line breaks. -/
def lines (s : String) : List String := (splitLines s.toList).map String.ofList

example : splitLines "a\r\n\nb\r".toList = [['a'], [], ['b', '\r']] := by decide

end LoadGen.Text
