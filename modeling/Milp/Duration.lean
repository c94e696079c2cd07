/-
`Duration` -- lengths of time, in whole nanoseconds.

A duration counts at most `2 ^ 64` seconds, less one nanosecond. It is made from
a number of seconds by rounding to the nearest nanosecond (halves to even), and
shown in the largest of seconds, milliseconds, microseconds and nanoseconds that
leaves something before the point, with the places it needs.
-/
import Milp.Number
import Milp.Decimal.Positional

set_option autoImplicit false

namespace Milp

/-- A length of time. -/
structure Duration where
  nanoseconds : Nat
deriving DecidableEq, Repr

namespace Duration

def perSecond : Nat := 1000000000

def ofParts (seconds nanoseconds : Nat) : Duration := ⟨seconds * perSecond + nanoseconds⟩

def zero : Duration := ⟨0⟩

def longest : Duration := ⟨Nat.pow 2 64 * perSecond - 1⟩

def ofMilliseconds (count : Nat) : Duration := ⟨count * 1000000⟩

def seconds (d : Duration) : Nat := d.nanoseconds / perSecond

def subsecond (d : Duration) : Nat := d.nanoseconds % perSecond

/-! ## From a number of seconds -/

/-- Why a number of seconds is no duration. -/
inductive SecondsError where
  | negative
  | outOfRange
deriving DecidableEq, Repr

def SecondsError.message : SecondsError → String
  | .negative => "cannot convert float seconds to Duration: value is negative"
  | .outOfRange => "cannot convert float seconds to Duration: value is either too big or NaN"

def ofSeconds {α : Type} [Number α] (seconds : α) : Except SecondsError Duration :=
  if Number.lt seconds 0 then .error .negative
  else match Number.toRat? seconds with
    | none => .error .outOfRange
    | some exact =>
      let rounded := Decimal.roundDiv (exact.num.natAbs * perSecond) exact.den
      if longest.nanoseconds < rounded then .error .outOfRange else .ok ⟨rounded⟩

/-! ## Text -/

/-- A count of units with a number of nanosecond places below them, trailing
zeros left out. -/
def inUnits (nanoseconds places : Nat) (unit : String) : String :=
  let (kept, shown) := Decimal.trimPlaces nanoseconds places
  Decimal.withPlaces kept shown ++ unit

def text (d : Duration) : String :=
  if perSecond ≤ d.nanoseconds then inUnits d.nanoseconds 9 "s"
  else if 1000000 ≤ d.nanoseconds then inUnits d.nanoseconds 6 "ms"
  else if 1000 ≤ d.nanoseconds then inUnits d.nanoseconds 3 "µs"
  else inUnits d.nanoseconds 0 "ns"

/-- The milliseconds, with two places. -/
def millisecondsText (d : Duration) : String :=
  Decimal.withPlaces (Decimal.roundDiv d.nanoseconds 10000) 2

end Duration

end Milp
