import LoadGen.Json.Value
import LoadGen.Text.Numeral

namespace LoadGen.Json

def isGap (c : Char) : Bool := c == ' ' || c == '\t' || c == '\n' || c == '\r'

def skipGap (cs : List Char) : List Char := cs.dropWhile isGap

def hexDigit? (c : Char) : Option Nat :=
  if c.isDigit then some (c.toNat - '0'.toNat)
  else if 'a' ≤ c ∧ c ≤ 'f' then some (c.toNat - 'a'.toNat + 10)
  else if 'A' ≤ c ∧ c ≤ 'F' then some (c.toNat - 'A'.toNat + 10)
  else none

def hex? (cs : List Char) : Option Nat :=
  cs.foldlM (fun n c => (hexDigit? c).map fun d => 16 * n + d) 0

def escape? : Char → Option Char
  | '"' => some '"'
  | '\\' => some '\\'
  | '/' => some '/'
  | 'b' => some '\x08'
  | 'f' => some '\x0c'
  | 'n' => some '\n'
  | 'r' => some '\r'
  | 't' => some '\t'
  | _ => none

def isHighUnit (n : Nat) : Bool := 0xd800 ≤ n && n < 0xdc00

def isLowUnit (n : Nat) : Bool := 0xdc00 ≤ n && n < 0xe000

/-- The character of two units outside the basic plane. -/
def joinUnits (high low : Nat) : Char :=
  Char.ofNat (0x10000 + (high - 0xd800) * 0x400 + (low - 0xdc00))

/-- The text up to the closing quote, and what follows it. A unit of a pair may not stand alone. -/
def readText : List Char → Option (List Char × List Char)
  | [] => none
  | '"' :: rest => some ([], rest)
  | '\\' :: 'u' :: a :: b :: c :: d :: rest =>
    match hex? [a, b, c, d] with
    | none => none
    | some n =>
      if isHighUnit n then
        match rest with
        | '\\' :: 'u' :: e :: f :: g :: h :: rest =>
          match hex? [e, f, g, h] with
          | none => none
          | some m =>
            if isLowUnit m then (readText rest).map fun (t, r) => (joinUnits n m :: t, r) else none
        | _ => none
      else if isLowUnit n then none
      else (readText rest).map fun (t, r) => (Char.ofNat n :: t, r)
  | '\\' :: c :: rest =>
    match escape? c with
    | none => none
    | some c => (readText rest).map fun (t, r) => (c :: t, r)
  | c :: rest =>
    if c.toNat < 0x20 then none else (readText rest).map fun (t, r) => (c :: t, r)

def isNumberChar (c : Char) : Bool :=
  c.isDigit || c == '+' || c == '-' || c == '.' || c == 'e' || c == 'E'

/-- The double nearest to `mantissa * 10 ^ exponent`. -/
def floatOfDecimal (mantissa : Nat) (exponent : Int) : Float :=
  let size : Int := Int.ofNat (Nat.toDigits 10 mantissa).length + exponent
  if mantissa = 0 ∨ size < -400 then 0.0
  else if 400 < size then 1.0 / 0.0
  else Float.ofScientific mantissa (exponent < 0) exponent.natAbs

/-- The digits at the start, of which there has to be one at least. -/
def digits? (cs : List Char) : Option (List Char × List Char) :=
  let ds := cs.takeWhile Char.isDigit
  if ds.isEmpty then none else some (ds, cs.dropWhile Char.isDigit)

def fraction? : List Char → Option (List Char × List Char)
  | '.' :: rest => digits? rest
  | cs => some ([], cs)

def exponentDigits? (negative : Bool) (cs : List Char) : Option Int :=
  match digits? cs with
  | some (ds, []) =>
    let n := Int.ofNat (Text.digitsValue ds)
    some (if negative then -n else n)
  | _ => none

/-- The exponent that ends a number; none if the number ends before it. -/
def exponent? : List Char → Option (Option Int)
  | [] => some none
  | e :: rest =>
    if e == 'e' || e == 'E' then
      match rest with
      | '-' :: rest => (exponentDigits? true rest).map some
      | '+' :: rest => (exponentDigits? false rest).map some
      | rest => (exponentDigits? false rest).map some
    else none

def unsigned? (negative : Bool) (cs : List Char) : Option Json := do
  let (whole, rest) ← digits? cs
  let (part, rest) ← fraction? rest
  let power ← exponent? rest
  if whole.length > 1 ∧ whole.head? = some '0' then none
  let mantissa := Text.digitsValue (whole ++ part)
  let n : Int := if negative then -Int.ofNat mantissa else Int.ofNat mantissa
  if part.isEmpty ∧ power.isNone ∧ fitsWord n ∧ ¬(negative ∧ mantissa = 0) then
    some (.int n)
  else
    let x := floatOfDecimal mantissa (power.getD 0 - Int.ofNat part.length)
    some (.float (if negative then -x else x))

def number? : List Char → Option Json
  | '-' :: cs => unsigned? true cs
  | cs => unsigned? false cs

mutual

/-- One value and what follows it; `depth` bounds the work. -/
def readValue : Nat → List Char → Option (Json × List Char)
  | 0, _ => none
  | depth + 1, cs =>
    match skipGap cs with
    | 'n' :: 'u' :: 'l' :: 'l' :: rest => some (.null, rest)
    | 't' :: 'r' :: 'u' :: 'e' :: rest => some (.bool true, rest)
    | 'f' :: 'a' :: 'l' :: 's' :: 'e' :: rest => some (.bool false, rest)
    | '"' :: rest => (readText rest).map fun (t, r) => (.text (String.ofList t), r)
    | '[' :: rest =>
      match skipGap rest with
      | ']' :: rest => some (.list [], rest)
      | rest => (readItems depth rest).map fun (items, r) => (.list items, r)
    | '\x7b' :: rest =>
      match skipGap rest with
      | '\x7d' :: rest => some (.object [], rest)
      | rest => (readFields depth rest).map fun (fields, r) => (ofFields fields, r)
    | cs =>
      (number? (cs.takeWhile isNumberChar)).map fun v => (v, cs.dropWhile isNumberChar)

def readItems : Nat → List Char → Option (List Json × List Char)
  | 0, _ => none
  | depth + 1, cs =>
    match readValue depth cs with
    | none => none
    | some (v, rest) =>
      match skipGap rest with
      | ']' :: rest => some ([v], rest)
      | ',' :: rest => (readItems depth rest).map fun (vs, r) => (v :: vs, r)
      | _ => none

def readFields : Nat → List Char → Option (List (String × Json) × List Char)
  | 0, _ => none
  | depth + 1, cs =>
    match skipGap cs with
    | '"' :: rest =>
      match readText rest with
      | none => none
      | some (name, rest) =>
        match skipGap rest with
        | ':' :: rest =>
          match readValue depth rest with
          | none => none
          | some (v, rest) =>
            match skipGap rest with
            | '\x7d' :: rest => some ([(String.ofList name, v)], rest)
            | ',' :: rest =>
              (readFields depth rest).map fun (fs, r) => ((String.ofList name, v) :: fs, r)
            | _ => none
        | _ => none
    | _ => none

end

def parse? (s : String) : Option Json :=
  let cs := s.toList
  match readValue (cs.length + 1) cs with
  | some (v, rest) => if (skipGap rest).isEmpty then some v else none
  | none => none

end LoadGen.Json
