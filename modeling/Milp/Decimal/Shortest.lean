/-
`Shortest` -- the fewest decimal digits that identify a binary number.

A positive binary number `m · 2 ^ q` stands for all the reals that round to it:
an interval around it that reaches half way to its neighbours and contains its
ends exactly if `m` is even. The shortest decimal in that interval is found on
coarser and coarser grids read backwards: for one digit, two digits and so on,
only the two grid points around the number itself can be the nearest hit, and
the first grid with a hit wins. Seventeen digits always suffice in binary64.

All comparisons are between natural numbers over one common denominator.
-/
import Milp.Decimal.Positional

set_option autoImplicit false

namespace Milp.Decimal

/-- The reals that round to one number, over a common denominator. -/
structure RoundingInterval where
  /-- The number itself. -/
  centre : Nat
  /-- The lower end. -/
  lower : Nat
  /-- The upper end. -/
  upper : Nat
  /-- The common denominator. -/
  denominator : Nat
  /-- Whether the ends round to the number as well. -/
  closed : Bool

namespace RoundingInterval

/-- The interval of `m · 2 ^ q`. Below a number that starts a binade
(`binade`) the next number is only half as far away. -/
def ofBinary (m : Nat) (q : Int) (binade : Bool) : RoundingInterval :=
  let unit := Nat.pow 2 q.toNat
  -- in quarters of the last place, where both ends are whole numbers
  let centre := 4 * m * unit
  { centre
    lower := centre - (if binade then 1 else 2) * unit
    upper := centre + 2 * unit
    denominator := 4 * Nat.pow 2 (-q).toNat
    closed := m % 2 = 0 }

def digitCount (n : Nat) : Nat := (toString n).length

/-- The least `e` with the number below `10 ^ e`. -/
def decimalExponent (r : RoundingInterval) : Int :=
  if r.denominator ≤ r.centre then digitCount (r.centre / r.denominator)
  else 1 - (digitCount ((r.denominator + r.centre - 1) / r.centre - 1) : Int)

/-- Where the number, its interval and a grid of powers of ten are compared:
numerators over one denominator, and the width of the grid there. -/
structure Grid where
  step : Nat
  centre : Nat
  lower : Nat
  upper : Nat
  closed : Bool

/-- Refine the common denominator so that the multiples of `10 ^ exponent` are
multiples of a natural number. -/
def grid (r : RoundingInterval) (exponent : Int) : Grid :=
  let scale := Nat.pow 10 (-exponent).toNat
  { step := r.denominator * Nat.pow 10 exponent.toNat
    centre := r.centre * scale
    lower := r.lower * scale
    upper := r.upper * scale
    closed := r.closed }

/-- Whether a multiple of the grid step rounds to the number. -/
def Grid.contains (g : Grid) (point : Nat) : Bool :=
  let position := point * g.step
  if g.closed then g.lower ≤ position && position ≤ g.upper
  else g.lower < position && position < g.upper

/-- The grid point nearest to the number among those that round to it; of two
equally near ones the upper. -/
def Grid.hit? (g : Grid) : Option Nat :=
  let below := g.centre / g.step
  let rest := g.centre % g.step
  match g.contains below, g.contains (below + 1) with
  | true, true => some (if g.step ≤ 2 * rest then below + 1 else below)
  | true, false => some below
  | false, true => some (below + 1)
  | false, false => none

/-- Try grids of more and more digits. The result is a number of digits and the
power of ten they are multiplied by. -/
def search (r : RoundingInterval) (magnitude : Int) : Nat → Nat → Nat × Int
  | digits, 0 =>
    let exponent := magnitude - digits
    let g := r.grid exponent
    (g.centre / g.step, exponent)
  | digits, attempts + 1 =>
    let exponent := magnitude - digits
    match (r.grid exponent).hit? with
    | some point => (point, exponent)
    | none => search r magnitude (digits + 1) attempts

/-- The shortest decimal in the interval, nearest to the number. -/
def shortest (r : RoundingInterval) : Nat × Int := search r r.decimalExponent 1 17

end RoundingInterval

/-- The text of the shortest decimal that identifies `m · 2 ^ q`, for `m > 0`. -/
def shortestText (m : Nat) (q : Int) (binade : Bool) : String :=
  let (digits, exponent) := (RoundingInterval.ofBinary m q binade).shortest
  if exponent < 0 then
    let (kept, places) := trimPlaces digits exponent.natAbs
    withPlaces kept places
  else positional digits exponent

end Milp.Decimal
