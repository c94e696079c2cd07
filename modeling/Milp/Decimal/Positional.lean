/-
`Positional` -- decimal numbers written out in full, and rounded quotients.

A decimal number is a natural number of digits and a power of ten, and is
written positionally whatever its size: there is no exponent in the text.
`positional` keeps every digit it is given, so the same function writes the
fewest digits that identify a number and a fixed number of places.
-/
set_option autoImplicit false

namespace Milp.Decimal

/-- `count` zeros. -/
def zeros (count : Nat) : String := String.ofList (List.replicate count '0')

/-- The digits of `digits · 10 ^ (-places)`: at least one digit before the
point, exactly `places` after it, and no point if there are none. -/
def withPlaces (digits places : Nat) : String :=
  if places = 0 then toString digits
  else
    let written := (toString digits).toList
    let padded := List.replicate (places + 1 - written.length) '0' ++ written
    let whole := padded.take (padded.length - places)
    let fraction := padded.drop (padded.length - places)
    String.ofList (whole ++ '.' :: fraction)

/-- The text of `digits · 10 ^ exponent`, without an exponent. -/
def positional (digits : Nat) (exponent : Int) : String :=
  if exponent < 0 then withPlaces digits exponent.natAbs
  else toString (digits * Nat.pow 10 exponent.natAbs)

/-- Take trailing zeros off the digits of `digits · 10 ^ (-places)`, as long as
there are places to take them from. -/
def trimPlaces (digits : Nat) : Nat → Nat × Nat
  | 0 => (digits, 0)
  | places + 1 =>
    if digits % 10 = 0 then trimPlaces (digits / 10) places else (digits, places + 1)

/-- The whole number nearest to a quotient; of two nearest ones the even one. -/
def roundDiv (numerator denominator : Nat) : Nat :=
  let quotient := numerator / denominator
  let twice := 2 * (numerator % denominator)
  if twice < denominator then quotient
  else if denominator < twice then quotient + 1
  else if quotient % 2 = 0 then quotient else quotient + 1

/-- A non-negative rational with a fixed number of places, halves to even. -/
def fixed (value : Rat) (places : Nat) : String :=
  withPlaces (roundDiv (value.num.natAbs * Nat.pow 10 places) value.den) places

end Milp.Decimal
