/-
`Number` -- the arithmetic that models, searches and checks are written in.

Every definition of the library that touches a number is written once, over a
type with this interface, and used at two carriers: binary floating point
(`Milp.Number.Binary64`), with which the program runs, and the rational numbers
with the two infinities and "not a number" (`Milp.Number.ExtRat`), in which the
same definitions have exact meanings.

The interface carries no laws. Comparisons are functions to `Bool` because all
of them are false on a value that is not a number. Everything below the class
is derived from it: literals, absolute value, the lesser and the greater of two
numbers (which pass over a value that is not a number), and sums, which start
from minus zero as IEEE 754 asks of the empty sum that leaves `-0` unchanged.
-/
import Milp.Decimal.Numeral

set_option autoImplicit false

namespace Milp

/-- Numbers with infinities and values that are not numbers. -/
class Number (α : Type) extends Add α, Sub α, Mul α, Div α, Neg α, BEq α where
  /-- Strictly less; false if either side is not a number. -/
  lt : α → α → Bool
  /-- Less or equal; false if either side is not a number. -/
  le : α → α → Bool
  /-- The greatest whole number not above. -/
  floor : α → α
  /-- The least whole number not below. -/
  ceil : α → α
  /-- The nearest whole number; halves go away from zero. -/
  round : α → α
  /-- The number nearest to a numeral. -/
  ofNumeral : Numeral → α
  /-- The rational that a finite number is. -/
  toRat? : α → Option Rat
  /-- The text by which a number is shown. -/
  text : α → String

namespace Number

variable {α : Type} [Number α]

/-! ## Literals -/

instance instOfNat (n : Nat) : OfNat α n := ⟨ofNumeral (.finite false n 0)⟩

instance instOfScientific : OfScientific α :=
  ⟨fun digits down exponent =>
    ofNumeral (.finite false digits (if down then -(exponent : Int) else exponent))⟩

def posInf : α := ofNumeral (.infinite false)

def negInf : α := ofNumeral (.infinite true)

/-! ## Tests -/

/-- Only a value that is not a number differs from itself. -/
def isNaN (x : α) : Bool := !(x == x)

/-- Neither infinite nor not a number. -/
def isFinite (x : α) : Bool := lt negInf x && lt x posInf

/-- Strictly greater; false if either side is not a number. -/
def gt (x y : α) : Bool := lt y x

/-! ## Order and magnitude -/

/-- The magnitude; that of minus zero is zero. -/
def abs (x : α) : α := if lt 0 x then x else 0 - x

/-- The greater of two numbers, the second of equals. A side that is not a number
is passed over. -/
def max (x y : α) : α := if isNaN y || lt y x then x else y

/-- The lesser of two numbers, the second of equals. A side that is not a number
is passed over. -/
def min (x y : α) : α := if isNaN y || lt x y then x else y

/-! ## Sums -/

def sum (xs : List α) : α := xs.foldl (· + ·) (-0)

/-- The sum of coefficients times the values of what they belong to. -/
def weightedSum {β : Type} (terms : List (β × α)) (value : β → α) : α :=
  sum (terms.map fun (item, coefficient) => coefficient * value item)

/-- The value of the column at a position; zero beyond the end. -/
def valueAt (values : List α) (index : Nat) : α := values.getD index 0

/-- The distance to the nearest whole number. -/
def integralityGap (x : α) : α := abs (x - round x)

end Number

end Milp
