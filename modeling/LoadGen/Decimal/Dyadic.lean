namespace LoadGen.Decimal

/-- What the bits of a double say. -/
inductive Shape
  | nan
  | infinite (negative : Bool)
  | finite (negative : Bool) (mantissa : Nat) (exponent : Int)
  deriving Repr, DecidableEq

/-- The value of a bit pattern: `mantissa * 2 ^ exponent` when finite. -/
def Shape.ofBits (bits : Nat) : Shape :=
  let negative := bits / Nat.pow 2 63 % 2 == 1
  let scale : Nat := bits / Nat.pow 2 52 % Nat.pow 2 11
  let fraction : Nat := bits % Nat.pow 2 52
  if scale = Nat.pow 2 11 - 1 then
    if fraction = 0 then .infinite negative else .nan
  else if scale = 0 then .finite negative fraction (-1074)
  else .finite negative (Nat.pow 2 52 + fraction) (Int.ofNat scale - 1075)

def Shape.ofFloat (x : Float) : Shape := .ofBits x.toBits.toNat

/-- The quotient rounded to the nearest whole number, a half to the even neighbour. -/
def divRound (num den : Nat) : Nat :=
  let q := num / den
  let r := num % den
  if 2 * r < den then q
  else if den < 2 * r then q + 1
  else if q % 2 = 0 then q else q + 1

/-- `mantissa * 2 ^ exponent * 10 ^ places`, rounded to a whole number. -/
def scaled (mantissa : Nat) (exponent : Int) (places : Nat) : Nat :=
  if 0 ≤ exponent then mantissa * Nat.pow 2 exponent.toNat * Nat.pow 10 places
  else divRound (mantissa * Nat.pow 10 places) (Nat.pow 2 (-exponent).toNat)

end LoadGen.Decimal
