/-
`Formula` -- expressions as a modeller writes them, before they are collected.

A formula is a tree of sums, differences, multiples and the other ways in which
an expression is put together. It has two readings. `toAffine` collects it into
a linear expression step by step, as the operations of `Affine` do. `value` is
what it means: the number that it stands for once the variables have values, in
the arithmetic of these values.

A variable added to an expression contributes a term and leaves the constant
alone, and a multiple of a variable is a term with that coefficient; `converted`
marks a part that is an expression already and gets neither treatment. An
expression that something is added to in place is such a part of a sum.
-/
import Milp.Affine

set_option autoImplicit false

namespace Milp

/-- An expression as it is written. -/
inductive Formula (α : Type) where
  | variable (h : Handle)
  | number (value : α)
  | zero
  | converted (a : Formula α)
  | add (a b : Formula α)
  | sub (a b : Formula α)
  | scale (a : Formula α) (factor : α)
  | neg (a : Formula α)
  | sum (handles : List Handle)
  | terms (list : List (Handle × α))
  | addTerm (a : Formula α) (h : Handle) (coefficient : α)
  | withConstant (a : Formula α) (value : α)
deriving Repr

namespace Formula

section Collecting

variable {α : Type} [Number α]

/-- The linear expression that a formula collects to. -/
def toAffine : Formula α → Affine α
  | .variable h => .ofHandle h
  | .number value => .ofConstant value
  | .zero => .zero
  | .converted a => a.toAffine
  | .add a (.variable h) => a.toAffine.addTerm h 1
  | .add a b => a.toAffine.add b.toAffine
  | .sub a b => a.toAffine.sub b.toAffine
  | .scale (.variable h) factor => .ofTerm h factor
  | .scale a factor => a.toAffine.scale factor
  | .neg a => a.toAffine.neg
  | .sum handles => .ofHandles handles
  | .terms list => .ofTerms list
  | .addTerm a h coefficient => a.toAffine.addTerm h coefficient
  | .withConstant a value => a.toAffine.withConstant value

end Collecting

section Meaning

variable {α : Type} [Zero α] [Add α] [Sub α] [Mul α] [Neg α]

/-- The part of a formula's meaning that the variables contribute. -/
def variablePart (value : Handle → α) : Formula α → α
  | .variable h => value h
  | .number _ | .zero => 0
  | .converted a => a.variablePart value
  | .add a b => a.variablePart value + b.variablePart value
  | .sub a b => a.variablePart value - b.variablePart value
  | .scale a factor => a.variablePart value * factor
  | .neg a => -(a.variablePart value)
  | .sum handles => (handles.map value).sum
  | .terms list => (list.map fun (h, c) => c * value h).sum
  | .addTerm a h coefficient => a.variablePart value + coefficient * value h
  | .withConstant a _ => a.variablePart value

/-- The part of a formula's meaning that does not depend on the variables. -/
def constantPart : Formula α → α
  | .variable _ | .zero | .sum _ | .terms _ => 0
  | .number value => value
  | .converted a => a.constantPart
  | .add a b => a.constantPart + b.constantPart
  | .sub a b => a.constantPart - b.constantPart
  | .scale a factor => a.constantPart * factor
  | .neg a => -(a.constantPart)
  | .addTerm a _ _ => a.constantPart
  | .withConstant _ value => value

/-- What a formula means once the variables have values. -/
def value (a : Formula α) (assignment : Handle → α) : α :=
  a.variablePart assignment + a.constantPart

end Meaning

end Formula

end Milp
