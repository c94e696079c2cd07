/-
`Affine` -- linear expressions with a constant, `Σ cᵢ · xᵢ + constant`.

The terms stay in the order in which they were added and may name a variable
more than once. Merging them is a separate step, `normalizedTerms`: one term a
variable, in the order of first appearance, and none with a zero coefficient.
-/
import Milp.Number
import Milp.Handle

set_option autoImplicit false

namespace Milp

/-- A linear expression with a constant. -/
structure Affine (α : Type) where
  terms : List (Handle × α)
  constant : α
deriving Repr

namespace Affine

variable {α : Type} [Number α]

/-! ## Making expressions -/

def ofConstant (value : α) : Affine α := ⟨[], value⟩

def zero : Affine α := ofConstant 0

def ofTerm (h : Handle) (coefficient : α) : Affine α := ⟨[(h, coefficient)], 0⟩

def ofHandle (h : Handle) : Affine α := ofTerm h 1

def ofTerms (terms : List (Handle × α)) : Affine α := ⟨terms, 0⟩

def ofHandles (handles : List Handle) : Affine α := ofTerms (handles.map fun h => (h, 1))

/-! ## Changing expressions -/

def addTerm (e : Affine α) (h : Handle) (coefficient : α) : Affine α :=
  { e with terms := e.terms ++ [(h, coefficient)] }

def withConstant (e : Affine α) (value : α) : Affine α := { e with constant := value }

/-- The sum: the terms of the first, then those of the second. -/
def add (e f : Affine α) : Affine α := ⟨e.terms ++ f.terms, e.constant + f.constant⟩

def scale (e : Affine α) (factor : α) : Affine α :=
  ⟨e.terms.map fun (h, c) => (h, c * factor), e.constant * factor⟩

def neg (e : Affine α) : Affine α := e.scale (-1)

def sub (e f : Affine α) : Affine α := e.add f.neg

/-! ## Reading expressions -/

/-- The value under an assignment of values to the variables. -/
def evaluate (e : Affine α) (value : Handle → α) : α :=
  Number.weightedSum e.terms value + e.constant

/-- Add a coefficient to the term of a variable, or a new term at the end. -/
def mergeTerm (h : Handle) (coefficient : α) : List (Handle × α) → List (Handle × α)
  | [] => [(h, coefficient)]
  | (k, c) :: rest =>
    if k = h then (k, c + coefficient) :: rest else (k, c) :: mergeTerm h coefficient rest

/-- One term a variable, in the order of first appearance. -/
def mergedTerms (terms : List (Handle × α)) : List (Handle × α) :=
  terms.foldl (fun merged (h, c) => mergeTerm h c merged) []

/-- One term a variable, in the order of first appearance, without the terms
that have cancelled. -/
def normalizedTerms (e : Affine α) : List (Handle × α) :=
  (mergedTerms e.terms).filter fun (_, c) => !(c == 0)

end Affine

end Milp
