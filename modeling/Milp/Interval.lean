/-
`Interval` -- closed intervals of numbers, either side of which may be infinite.

An interval is *valid* if it contains a finite number: its ends are numbers, in
order, and it is not pinned at an infinity. The operations are defined for every
pair of ends, valid or not.
-/
import Milp.Number

set_option autoImplicit false

namespace Milp

/-- The numbers from `lower` to `upper`. -/
structure Interval (α : Type) where
  lower : α
  upper : α
deriving Repr

namespace Interval

variable {α : Type} [Number α]

def free : Interval α := ⟨Number.negInf, Number.posInf⟩

def nonNegative : Interval α := ⟨0, Number.posInf⟩

def point (value : α) : Interval α := ⟨value, value⟩

def unit : Interval α := ⟨0, 1⟩

/-- Whether the interval contains a finite number. -/
def isValid (b : Interval α) : Bool :=
  !Number.isNaN b.lower && !Number.isNaN b.upper && Number.le b.lower b.upper
    && !(b.lower == Number.posInf) && !(b.upper == Number.negInf)

def intersect (b c : Interval α) : Interval α :=
  ⟨Number.max b.lower c.lower, Number.min b.upper c.upper⟩

/-- The distance from a number to the interval. -/
def violation (b : Interval α) (value : α) : α :=
  Number.max (Number.max (b.lower - value) (value - b.upper)) 0

/-- Whether a number is within a tolerance of the interval. -/
def contains (b : Interval α) (value tolerance : α) : Bool :=
  Number.le (b.violation value) tolerance

/-- The number of the interval nearest to a number. -/
def clamp (b : Interval α) (value : α) : α :=
  Number.min (Number.max value b.lower) b.upper

def text (b : Interval α) : String :=
  "[" ++ Number.text b.lower ++ ", " ++ Number.text b.upper ++ "]"

end Interval

end Milp
