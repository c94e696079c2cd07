/-
`Building` -- models as the outcome of a sequence of operations.

A build step is one operation on a model, written down. `Model.build` carries a
list of them out from the empty model and stops at the first that fails, so a
statement about every model is a statement about every list of steps.
`Model.attemptAll` goes on instead, as a caller does that looks at the error and
tries something else.

A workbench holds several models at once. It issues a new identity to every
model it creates; a copy keeps the identity of what it was copied from, so both
accept the same references.
-/
import Milp.Model

set_option autoImplicit false

namespace Milp

/-- One operation that makes a model grow. -/
inductive BuildStep (α : Type) where
  | declare (name : String) (kind : VariableKind) (bounds : Interval α)
  | constrain (name : Option String) (e : Affine α) (relation : Relation) (rhs : α)
  | optimize (e : Affine α) (sense : Sense)
deriving Repr

namespace Model

variable {α : Type} [Number α]

def apply (m : Model α) : BuildStep α → Except (Fault α) (Model α)
  | .declare name kind bounds => (m.declare name kind bounds).map Prod.snd
  | .constrain name e relation rhs => (m.addConstraint name e relation rhs).map Prod.snd
  | .optimize e sense => m.setObjective e sense

/-- Carry out a step; one that fails changes nothing. -/
def attempt (m : Model α) (step : BuildStep α) : Model α :=
  match m.apply step with
  | .ok grown => grown
  | .error _ => m

/-- Carry out steps one after the other, past those that fail. -/
def attemptAll (m : Model α) (steps : List (BuildStep α)) : Model α := steps.foldl attempt m

/-- Carry out steps one after the other, up to the first that fails. -/
def applyAll (m : Model α) (steps : List (BuildStep α)) : Except (Fault α) (Model α) :=
  steps.foldlM apply m

def build (id : ModelId) (name : String) (steps : List (BuildStep α)) :
    Except (Fault α) (Model α) :=
  (empty id name).applyAll steps

end Model

/-! ## Several models -/

/-- Models side by side, and the identity that the next new one gets. -/
structure Workbench (α : Type) where
  nextId : Nat
  models : List (Model α)
deriving Repr

/-- One operation on a workbench. Models are called by their position. -/
inductive Workbench.Step (α : Type) where
  | create (name : String)
  | copy (source : Nat)
  | build (target : Nat) (step : BuildStep α)
deriving Repr

namespace Workbench

variable {α : Type} [Number α]

omit [Number α] in
def empty : Workbench α := ⟨1, []⟩

/-- A new model with an identity of its own, in the last position. -/
def create (w : Workbench α) (name : String) : Workbench α :=
  ⟨w.nextId + 1, w.models ++ [Model.empty ⟨w.nextId⟩ name]⟩

omit [Number α] in
/-- A copy of a model, identity included, in the last position. -/
def copy (w : Workbench α) (source : Nat) : Workbench α :=
  match w.models[source]? with
  | some m => { w with models := w.models ++ [m] }
  | none => w

omit [Number α] in
def put (w : Workbench α) (target : Nat) (m : Model α) : Workbench α :=
  { w with models := w.models.set target m }

/-- Carry out one operation. One that fails, or that calls a model that is not
there, changes nothing. -/
def apply (w : Workbench α) : Step α → Workbench α
  | .create name => w.create name
  | .copy source => w.copy source
  | .build target step =>
    match w.models[target]? with
    | none => w
    | some m => w.put target (m.attempt step)

/-- Carry out operations one after the other, from the workbench without
models. -/
def run (steps : List (Step α)) : Workbench α := steps.foldl apply empty

end Workbench

end Milp
