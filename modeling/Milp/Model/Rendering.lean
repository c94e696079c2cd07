/-
`Rendering` -- the text of a model.

A linear expression is written with the signs between its terms, and a
coefficient of magnitude one is left out. A constant is written if it is not
zero or if there are no terms.
-/
import Milp.Model

set_option autoImplicit false

namespace Milp

/-- Lines of text, each with its line end. -/
def joinLines (lines : List String) : String := String.join (lines.map (· ++ "\n"))

namespace Model

variable {α : Type} [Number α]

omit [Number α] in
def columnName (m : Model α) (column : Nat) : String :=
  (m.vars[column]?.map (·.name)).getD ""

def termText (m : Model α) (first : Bool) (h : Handle) (coefficient : α) : String :=
  let sign :=
    if Number.lt coefficient 0 then (if first then "-" else " - ")
    else (if first then "" else " + ")
  let magnitude := Number.abs coefficient
  let factor := if magnitude == 1 then "" else Number.text magnitude ++ " "
  sign ++ factor ++ m.columnName h.index

/-- Terms in order, the first without a sign in front unless it is a minus. -/
def termsText (m : Model α) : List (Handle × α) → String
  | [] => ""
  | (h, c) :: rest =>
    m.termText true h c ++ String.join (rest.map fun (k, d) => m.termText false k d)

def expressionText (m : Model α) (terms : List (Handle × α)) (constant : α) : String :=
  if terms.isEmpty then Number.text constant
  else
    let tail :=
      if constant == 0 then ""
      else if Number.lt constant 0 then " - " ++ Number.text (-constant)
      else " + " ++ Number.text constant
    m.termsText terms ++ tail

def constraintText (m : Model α) (c : Constraint α) : String :=
  "  " ++ c.name ++ ": " ++ m.expressionText c.terms 0 ++ " " ++ c.relation.symbol ++ " "
    ++ Number.text c.rhs

/-- A variable in one line, between its bounds. -/
def variableText (v : Variable α) : String :=
  "  " ++ Number.text v.bounds.lower ++ " <= " ++ v.name ++ " <= " ++ Number.text v.bounds.upper
    ++ " (" ++ v.kind.label ++ ")"

/-- The text of a model: its name if it has one, the objective, the constraints
and the variables. -/
def text (m : Model α) : String :=
  joinLines <|
    (if m.name.isEmpty then [] else ["Model '" ++ m.name ++ "'"])
    ++ ["Objective",
        "  " ++ m.objective.sense.label ++ " "
          ++ m.expressionText m.objective.terms m.objective.constant,
        "Constraints"]
    ++ m.constraints.map m.constraintText
    ++ ["Variables"]
    ++ m.vars.map variableText

end Model

end Milp
