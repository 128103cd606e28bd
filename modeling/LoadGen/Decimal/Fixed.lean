import LoadGen.Decimal.Dyadic

namespace LoadGen.Decimal

/-- The digits of `n` with a point before the last `places` of them. -/
def pointed (n places : Nat) : String :=
  let whole := toString (n / Nat.pow 10 places)
  let part := toString (n % Nat.pow 10 places)
  if places = 0 then whole
  else whole ++ "." ++ String.ofList (List.replicate (places - part.length) '0') ++ part

def signed (negative : Bool) (text : String) : String := if negative then "-" ++ text else text

/-- The exact value rounded to `places` decimal places, a half to the even neighbour. The sign is
kept even where only zeros are left. -/
def fixed (places : Nat) (x : Float) : String :=
  match Shape.ofFloat x with
  | .nan => "NaN"
  | .infinite negative => signed negative "inf"
  | .finite negative m e => signed negative (pointed (scaled m e places) places)

/-- Figures in reports have two decimal places. -/
def twoPlaces (x : Float) : String := fixed 2 x

/-- The exact value of a finite double, with at least one decimal place. -/
def exactly (negative : Bool) (mantissa : Nat) (exponent : Int) : String :=
  let places := max 1 (-exponent).toNat
  signed negative (pointed (scaled mantissa exponent places) places)

end LoadGen.Decimal
