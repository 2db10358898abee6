/-!
Floating-point numbers written with a fixed number of decimal places.

A finite double that is not negative is a significand times a power of two. The text is the exact
value, rounded to the nearest multiple of the last place; a value halfway between two goes to the
even one.
-/

namespace TreeTiling.Decimal

/-- The quotient nearest to a fraction; a half goes to the even neighbour. -/
def roundDiv (numerator denominator : Nat) : Nat :=
  let quotient := numerator / denominator
  let twice := 2 * (numerator % denominator)
  if twice < denominator then quotient
  else if denominator < twice then quotient + 1
  else if quotient % 2 = 0 then quotient
  else quotient + 1

/-- The significand and the exponent of a finite double, its sign left out. -/
def decode (x : Float) : Nat × Int :=
  let bits := x.toBits.toNat
  let fraction := bits % Nat.pow 2 52
  let exponent := bits / Nat.pow 2 52 % Nat.pow 2 11
  if exponent = 0 then (fraction, -1074)
  else (Nat.pow 2 52 + fraction, (exponent : Int) - 1075)

/-- The number of units of the last place, with the given count of places. -/
def units (places : Nat) (x : Float) : Nat :=
  let (significand, exponent) := decode x
  match exponent with
  | .ofNat shift => significand * Nat.pow 2 shift * Nat.pow 10 places
  | .negSucc shift => roundDiv (significand * Nat.pow 10 places) (Nat.pow 2 (shift + 1))

/-- A finite double that is not negative, with two decimal places. -/
def twoPlaces (x : Float) : String :=
  let hundredths := units 2 x
  let cents := hundredths % 100
  (hundredths / 100).repr ++ "." ++ (cents / 10).repr ++ (cents % 10).repr

end TreeTiling.Decimal
