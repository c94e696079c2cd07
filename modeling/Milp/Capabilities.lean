/-
`Capabilities` -- what a solver can express, and which models it can take.

A model that uses a kind of variable or a relation beyond a solver's means is
refused, never weakened. Variables are looked at before constraints.
-/
import Milp.Model

set_option autoImplicit false

namespace Milp

/-- What a solver can express. -/
structure Capabilities where
  relations : List Relation
  integerDomains : Bool
deriving DecidableEq, Repr

namespace Capabilities

/-- Linear constraints and variables of every kind. -/
def mixedInteger : Capabilities := ⟨Relation.linear, true⟩

def supportsRelation (c : Capabilities) (r : Relation) : Bool := c.relations.contains r

def supportsVariable {α : Type} (c : Capabilities) (v : Variable α) : Bool :=
  c.integerDomains || !v.isIntegral

/-- Refuse a model that uses what cannot be expressed. -/
def checkSupport {α : Type} (c : Capabilities) (backend : String) (m : Model α) :
    Except (Fault α) Unit :=
  match m.vars.find? fun v => !c.supportsVariable v with
  | some v =>
    .error (.unsupportedConstruct backend (v.kind.label ++ " variable '" ++ v.name ++ "'"))
  | none =>
    match m.constraints.find? fun k => !c.supportsRelation k.relation with
    | some k =>
      .error (.unsupportedConstruct backend
        ("relation " ++ k.relation.symbol ++ " in constraint '" ++ k.name ++ "'"))
    | none => .ok ()

/-- What is suspicious about a model, though it can be expressed. -/
def warnings {α : Type} (m : Model α) : List String :=
  (if m.vars.isEmpty then ["Model has no variables"] else [])
  ++ (if m.constraints.isEmpty then ["Model has no constraints (may be unbounded)"] else [])
  ++ (if m.objective.terms.isEmpty then ["Objective is empty; any feasible point is optimal"]
      else [])
  ++ (if 100 < m.dimensions.integers then
        ["Model has " ++ toString m.dimensions.integers
          ++ " integer variables, may be slow to solve"]
      else [])

/-- Judge a model without solving it: refuse it, or list what is suspicious. -/
def validate {α : Type} (c : Capabilities) (backend : String) (m : Model α) :
    Except (Fault α) (List String) :=
  (c.checkSupport backend m).map fun _ => warnings m

end Capabilities

end Milp
