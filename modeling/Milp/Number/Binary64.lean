/-
`Binary64` -- the carrier the program runs with: IEEE 754 double precision.

The operations are those of the machine. What is defined here is the passage
between such a number and exact quantities: the fields of its word, the rational
it is, the number nearest to a quotient (halves to even), and its text, which is
the shortest decimal that identifies it, written without an exponent.
-/
import Milp.Number
import Milp.Decimal.Shortest

set_option autoImplicit false

namespace Milp.Binary64

/-! ## The fields of a word -/

/-- The size of the fraction field. -/
def fractionModulus : Nat := Nat.pow 2 52

/-- The exponent of the smallest numbers. -/
def leastExponent : Int := -1074

/-- The exponent of the largest numbers. -/
def greatestExponent : Int := 971

/-- A finite number `± significand · 2 ^ exponent`. -/
structure Fields where
  negative : Bool
  significand : Nat
  exponent : Int
deriving DecidableEq, Repr

/-- The fields of a finite number; none for an infinity or not-a-number. -/
def fields? (x : Float) : Option Fields :=
  let word := x.toBits.toNat
  let negative := Nat.pow 2 63 ≤ word
  let biased := word / fractionModulus % 2048
  let fraction := word % fractionModulus
  if biased = 2047 then none
  -- numbers without the hidden bit share the least exponent
  else if biased = 0 then some ⟨negative, fraction, leastExponent⟩
  else some ⟨negative, fractionModulus + fraction, (biased : Int) - 1075⟩

/-! ## Exact values -/

/-- `n · 2 ^ exponent` as a rational. -/
def scaled (n : Nat) (exponent : Int) : Rat :=
  if exponent < 0 then mkRat n (Nat.pow 2 exponent.natAbs)
  else ((n * Nat.pow 2 exponent.natAbs : Nat) : Rat)

/-- The rational that a finite number is. -/
def toRat? (x : Float) : Option Rat :=
  (fields? x).map fun f =>
    let magnitude := scaled f.significand f.exponent
    if f.negative then -magnitude else magnitude

/-- `n / (d · 2 ^ exponent)` as a quotient of natural numbers. -/
def quotientAt (n d : Nat) (exponent : Int) : Nat × Nat :=
  if exponent < 0 then (n * Nat.pow 2 exponent.natAbs, d) else (n, d * Nat.pow 2 exponent.natAbs)

/-- The exponent at which the quotient `n / d` has a significand of 53 bits, or
the least exponent if that is greater. -/
def exponentOf (n d : Nat) : Int :=
  -- logarithms lose less than one each, so the guess is right or one too large
  let guess : Int := (n.log2 : Int) - d.log2 - 52
  let (p, r) := quotientAt n d guess
  let settled := if p / r < fractionModulus then guess - 1 else guess
  if settled < leastExponent then leastExponent else settled

/-- The word of a significand at an exponent, without a sign. A significand of
54 bits, which rounding can produce, carries into the exponent. -/
def magnitudeWord (significand : Nat) (exponent : Int) : Nat :=
  if significand < fractionModulus then significand
  else
    let biased := (exponent + 1075).toNat
    let word := biased * fractionModulus + (significand - fractionModulus)
    if 2047 * fractionModulus ≤ word then 2047 * fractionModulus else word

/-- The number nearest to `± n / d`; of two nearest ones the even one. -/
def ofQuotient (negative : Bool) (n d : Nat) : Float :=
  let magnitude :=
    if n = 0 then 0
    else
      let exponent := exponentOf n d
      if greatestExponent < exponent then 2047 * fractionModulus
      else
        let (p, r) := quotientAt n d exponent
        magnitudeWord (Decimal.roundDiv p r) exponent
  Float.ofBits (UInt64.ofNat (if negative then Nat.pow 2 63 + magnitude else magnitude))

/-! ## Numerals and text -/

def positiveInfinity : Float := Float.ofBits (UInt64.ofNat (2047 * fractionModulus))

def negativeInfinity : Float := Float.ofBits (UInt64.ofNat (Nat.pow 2 63 + 2047 * fractionModulus))

def infinity (negative : Bool) : Float := if negative then negativeInfinity else positiveInfinity

def positiveZero : Float := Float.ofBits 0

def negativeZero : Float := Float.ofBits (UInt64.ofNat (Nat.pow 2 63))

/-- The number nearest to a numeral. Beyond the range of the format the answer
is known from the magnitude alone, before any power of ten is computed. -/
def ofNumeral : Numeral → Float
  | .nan => Float.ofBits (UInt64.ofNat (2047 * fractionModulus + Nat.pow 2 51))
  | .infinite negative => infinity negative
  | .finite negative digits exponent =>
    if digits = 0 then if negative then negativeZero else positiveZero
    else
      let magnitude : Int := (Decimal.RoundingInterval.digitCount digits : Int) + exponent
      if magnitude < -330 then if negative then negativeZero else positiveZero
      else if 310 < magnitude then infinity negative
      else if exponent < 0 then ofQuotient negative digits (Nat.pow 10 exponent.natAbs)
      else ofQuotient negative (digits * Nat.pow 10 exponent.natAbs) 1

def text (x : Float) : String :=
  match fields? x with
  | none => if x == x then (if x < 0 then "-inf" else "inf") else "NaN"
  | some f =>
    let sign := if f.negative then "-" else ""
    if f.significand = 0 then sign ++ "0"
    else
      let binade := f.significand = fractionModulus && leastExponent < f.exponent
      sign ++ Decimal.shortestText f.significand f.exponent binade

/-- The text of a number with a fixed number of places, halves to even. -/
def fixedText (x : Float) (places : Nat) : String :=
  match fields? x with
  | none => text x
  | some f =>
    (if f.negative then "-" else "") ++ Decimal.fixed (scaled f.significand f.exponent) places

instance : Number Float where
  lt x y := decide (x < y)
  le x y := decide (x ≤ y)
  floor := Float.floor
  ceil := Float.ceil
  round := Float.round
  ofNumeral := ofNumeral
  toRat? := toRat?
  text := text

end Milp.Binary64
