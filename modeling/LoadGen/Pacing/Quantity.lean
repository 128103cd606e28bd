namespace LoadGen

/-- Numbers that rates, times and shares of a session are reckoned in. -/
class Quantity (α : Type) extends Add α, Sub α, Mul α, Div α where
  ofNat : Nat → α
  floor : α → α
  /-- Whether the first number is below the second. What is no number compares with nothing. -/
  below : α → α → Bool
  /-- Whether the first number is below the second or equal to it. -/
  atMost : α → α → Bool
  /-- The whole number that is left of a number without its fraction; none is negative. -/
  count : α → Nat

/-- The largest whole number that is not above a number. Numbers of sixteen digits and more have no
fraction. -/
def wholeBelow (x : Float) : Float :=
  if 0 < x ∧ x < 9007199254740992 then x.toUInt64.toFloat
  else if -9007199254740992 < x ∧ x < 0 then
    let n := (-x).toUInt64.toFloat
    if n < -x then -(n + 1) else x
  else x

instance : Quantity Float where
  ofNat n := n.toUInt64.toFloat
  floor := wholeBelow
  below x y := x < y
  atMost x y := x ≤ y
  count x := x.toUInt64.toNat

end LoadGen
