/-
`ExtRat` -- the exact carrier: rational numbers, two infinities, not-a-number.

Arithmetic on finite values is exact. On the other values it follows the rules
of IEEE 754: opposite infinities do not add, zero times an infinity is not a
number, and every operation keeps "not a number". There is one zero.
-/
import Milp.Number

set_option autoImplicit false

namespace Milp

/-- A rational number, an infinity, or not a number. -/
inductive ExtRat where
  | nan
  | negInf
  | posInf
  | fin (value : Rat)
deriving DecidableEq, Repr, Inhabited

namespace ExtRat

/-! ## Arithmetic -/

/-- Sum; opposite infinities give no number. -/
def add : ExtRat → ExtRat → ExtRat
  | .nan, _ | _, .nan => .nan
  | .posInf, .negInf | .negInf, .posInf => .nan
  | .posInf, _ | _, .posInf => .posInf
  | .negInf, _ | _, .negInf => .negInf
  | .fin x, .fin y => .fin (x + y)

def neg : ExtRat → ExtRat
  | .nan => .nan
  | .posInf => .negInf
  | .negInf => .posInf
  | .fin x => .fin (-x)

/-- An infinity multiplied by a finite number takes its sign and loses its size. -/
def scaleInfinity (negative : Bool) (x : Rat) : ExtRat :=
  if x = 0 then .nan
  else if decide (x < 0) = negative then .posInf else .negInf

/-- Product; zero times an infinity is not a number. -/
def mul : ExtRat → ExtRat → ExtRat
  | .nan, _ | _, .nan => .nan
  | .posInf, .posInf | .negInf, .negInf => .posInf
  | .posInf, .negInf | .negInf, .posInf => .negInf
  | .posInf, .fin x | .fin x, .posInf => scaleInfinity false x
  | .negInf, .fin x | .fin x, .negInf => scaleInfinity true x
  | .fin x, .fin y => .fin (x * y)

/-- Quotient. A quotient by zero is infinite unless zero is divided; one by an
infinity is zero unless an infinity is divided. -/
def div : ExtRat → ExtRat → ExtRat
  | .nan, _ | _, .nan => .nan
  | .fin x, .fin y =>
    if y = 0 then scaleInfinity false x else .fin (x / y)
  | .fin _, .posInf | .fin _, .negInf => .fin 0
  | .posInf, .fin y => if y < 0 then .negInf else .posInf
  | .negInf, .fin y => if y < 0 then .posInf else .negInf
  | .posInf, .posInf | .posInf, .negInf | .negInf, .posInf | .negInf, .negInf => .nan

/-! ## Order -/

/-- Equality of numbers; not-a-number equals nothing. -/
def eqv : ExtRat → ExtRat → Bool
  | .posInf, .posInf | .negInf, .negInf => true
  | .fin x, .fin y => decide (x = y)
  | _, _ => false

/-- The strict order, with the infinities at its ends. -/
def lt : ExtRat → ExtRat → Bool
  | .nan, _ | _, .nan => false
  | _, .negInf | .posInf, _ => false
  | .negInf, _ | _, .posInf => true
  | .fin x, .fin y => decide (x < y)

/-- The order, with the infinities at its ends. -/
def le (x y : ExtRat) : Bool := lt x y || eqv x y

/-! ## Rounding -/

/-- Apply a rounding to a finite value; the others stay as they are. -/
def mapFinite (f : Rat → Int) : ExtRat → ExtRat
  | .fin x => .fin (f x : Rat)
  | other => other

/-- The nearest integer; halves go away from zero. -/
def nearestInt (x : Rat) : Int :=
  if x < 0 then -((-x + 1 / 2).floor) else (x + 1 / 2).floor

/-! ## Conversion -/

def tenPow (exponent : Int) : Rat :=
  if exponent < 0 then 1 / ((Nat.pow 10 exponent.natAbs : Nat) : Rat)
  else ((Nat.pow 10 exponent.natAbs : Nat) : Rat)

/-- The value of a numeral, exactly. -/
def ofNumeral : Numeral → ExtRat
  | .nan => .nan
  | .infinite negative => if negative then .negInf else .posInf
  | .finite negative digits exponent =>
    let magnitude : Rat := (digits : Rat) * tenPow exponent
    .fin (if negative then -magnitude else magnitude)

/-- The finite value, if it is one. -/
def toRat? : ExtRat → Option Rat
  | .fin x => some x
  | _ => none

/-- The value as text; a fraction is written with a bar. -/
def text : ExtRat → String
  | .nan => "NaN"
  | .posInf => "inf"
  | .negInf => "-inf"
  | .fin x => if x.den = 1 then toString x.num else toString x.num ++ "/" ++ toString x.den

instance : Number ExtRat where
  add := add
  sub x y := add x (neg y)
  mul := mul
  div := div
  neg := neg
  beq := eqv
  lt := lt
  le := le
  floor := mapFinite Rat.floor
  ceil := mapFinite Rat.ceil
  round := mapFinite nearestInt
  ofNumeral := ofNumeral
  toRat? := toRat?
  text := text

end ExtRat

end Milp
