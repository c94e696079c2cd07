/-
`Request` -- what a client of the service sends, and what it stands for.

A message is flat: variables are referred to by name, and kinds, relations and
directions are numbers. `ModelMessage.toModel` builds the model that a message
describes, item by item and in the order of the message: all variables, then all
constraints, then the objective. The first item that cannot be added is the
fault. Where one item has several faults, this is the order in which they count:

* of a variable, a number that is no kind, then what declaring it says;
* of a constraint, names that are not declared, then a number that is no
  relation, then what adding it says;
* of the objective, a number that is no direction, then names that are not
  declared, then what setting it says.

`OptionsMessage.over` lays the options of a request over those of the service. A
field at its zero leaves the service's value as it is, except for verbosity,
which is always the request's own.
-/
import Milp.Options
import Milp.Model

set_option autoImplicit false

namespace Milp.Service

/-! ## Messages -/

/-- A variable to declare. Absent bounds are zero below and infinite above. -/
structure VariableMessage (α : Type) where
  name : String
  kind : Int
  lower : Option α
  upper : Option α
deriving Repr

/-- A constraint to add, in terms of names. It may go without a name of its
own. -/
structure ConstraintMessage (α : Type) where
  name : String
  relation : Int
  terms : List (String × α)
  rhs : α
deriving Repr

/-- An objective to set, in terms of names. -/
structure ObjectiveMessage (α : Type) where
  sense : Int
  terms : List (String × α)
  constant : α
deriving Repr

/-- A model in a message. -/
structure ModelMessage (α : Type) where
  name : String
  vars : List (VariableMessage α)
  constraints : List (ConstraintMessage α)
  objective : Option (ObjectiveMessage α)
deriving Repr

/-- The options of one request. -/
structure OptionsMessage (α : Type) where
  backend : String
  /-- In seconds. -/
  timeLimit : α
  nodeLimit : Nat
  tolerance : α
  verbose : Bool
  /-- Whether the record of the search is to be sent back. -/
  includeTree : Bool
deriving Repr

/-- A request to solve or to judge a model. -/
structure Request (α : Type) where
  model : Option (ModelMessage α)
  options : Option (OptionsMessage α)
deriving Repr

/-! ## Numbers that stand for something -/

def kindOfNumber? : Int → Option VariableKind
  | 0 => some .continuous
  | 1 => some .integer
  | 2 => some .binary
  | _ => none

def relationOfNumber? : Int → Option Relation
  | 0 => some .atMost
  | 1 => some .equal
  | 2 => some .atLeast
  | 3 => some .differs
  | _ => none

def senseOfNumber? : Int → Option Sense
  | 0 => some .minimize
  | 1 => some .maximize
  | _ => none

variable {α : Type}

def VariableMessage.readKind (v : VariableMessage α) : Except (Fault α) VariableKind :=
  match kindOfNumber? v.kind with
  | some kind => .ok kind
  | none =>
    .error (.configuration
      ("invalid type " ++ toString v.kind ++ " for variable '" ++ v.name ++ "'"))

def ConstraintMessage.readRelation (c : ConstraintMessage α) : Except (Fault α) Relation :=
  match relationOfNumber? c.relation with
  | some relation => .ok relation
  | none =>
    .error (.configuration
      ("invalid relation " ++ toString c.relation ++ " in constraint '" ++ c.name ++ "'"))

def ObjectiveMessage.readSense (o : ObjectiveMessage α) : Except (Fault α) Sense :=
  match senseOfNumber? o.sense with
  | some sense => .ok sense
  | none => .error (.configuration ("invalid optimization type " ++ toString o.sense))

/-! ## Models -/

/-- The term that a name and a coefficient stand for in a model. -/
def readTerm (m : Model α) (term : String × α) : Except (Fault α) (Handle × α) :=
  match m.handleOf? term.1 with
  | some h => .ok (h, term.2)
  | none => .error (.unboundVariable (.described ("'" ++ term.1 ++ "'")))

variable [Number α]

/-- The expression that terms stand for in a model. -/
def readExpression (m : Model α) (terms : List (String × α)) : Except (Fault α) (Affine α) :=
  (terms.mapM (readTerm m)).map Affine.ofTerms

def VariableMessage.bounds (v : VariableMessage α) : Interval α :=
  ⟨v.lower.getD 0, v.upper.getD Number.posInf⟩

def VariableMessage.addTo (m : Model α) (v : VariableMessage α) : Except (Fault α) (Model α) := do
  let kind ← v.readKind
  let (_, grown) ← m.declare v.name kind v.bounds
  pure grown

omit [Number α] in
/-- The name that a constraint brings along, if it does. -/
def ConstraintMessage.ownName? (c : ConstraintMessage α) : Option String :=
  if c.name.isEmpty then none else some c.name

def ConstraintMessage.addTo (m : Model α) (c : ConstraintMessage α) :
    Except (Fault α) (Model α) := do
  let e ← readExpression m c.terms
  let relation ← c.readRelation
  let (_, grown) ← m.addConstraint c.ownName? e relation c.rhs
  pure grown

def ObjectiveMessage.addTo (m : Model α) (o : ObjectiveMessage α) :
    Except (Fault α) (Model α) := do
  let sense ← o.readSense
  let e ← readExpression m o.terms
  m.setObjective (e.withConstant o.constant) sense

def ModelMessage.toModel (message : ModelMessage α) (id : ModelId) :
    Except (Fault α) (Model α) := do
  let m ← message.vars.foldlM VariableMessage.addTo (Model.empty id message.name)
  let m ← message.constraints.foldlM ConstraintMessage.addTo m
  match message.objective with
  | some objective => objective.addTo m
  | none => pure m

/-! ## Options -/

/-- How the time limit of a request is referred to. -/
def timeLimitSource : String := "options.time_limit_secs"

/-- The options of a request where those of the service are `defaults`. -/
def OptionsMessage.over (message : OptionsMessage α) (defaults : Options α) :
    Except (Fault α) (Options α) := do
  let backend ←
    if message.backend.isEmpty then pure defaults.backend
    else BackendChoice.ofText message.backend
  let timeLimit ←
    if message.timeLimit == 0 then pure defaults.timeLimit
    else some <$> Options.timeLimitOfSeconds message.timeLimit timeLimitSource
  pure
    { defaults with
      backend := backend
      timeLimit := timeLimit
      nodeLimit := if 0 < message.nodeLimit then some message.nodeLimit else defaults.nodeLimit
      tolerance :=
        if Number.gt message.tolerance 0 then message.tolerance else defaults.tolerance
      verbose := message.verbose }

/-- The options of a request, which may have none of its own. -/
def mergeOptions (message : Option (OptionsMessage α)) (defaults : Options α) :
    Except (Fault α) (Options α) :=
  match message with
  | none => .ok defaults
  | some message => message.over defaults

end Milp.Service
