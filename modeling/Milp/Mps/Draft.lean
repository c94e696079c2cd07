/-
`Draft` -- a model as an MPS text builds it up.

An MPS text declares rows, then columns with their entries, and then changes
single numbers: right-hand sides, ranges and bounds. A draft is what has been
read so far. When the text has ended, it is turned into the operations that build
the model.

The first free row is the objective; later ones are kept only so that entries
may refer to them. A row with a range stands for two constraints.
-/
import Milp.Model.Building

set_option autoImplicit false

namespace Milp.Mps

/-- What a row is for. -/
inductive RowKind where
  | objective
  | free
  | constraint (relation : Relation)
deriving DecidableEq, Repr

/-- A row as read so far. -/
structure RowDraft (α : Type) where
  name : String
  kind : RowKind
  /-- Entries by column, in the order read. -/
  terms : List (Nat × α)
  rhs : α
  range : Option α
deriving Repr

/-- A column as read so far. -/
structure ColumnDraft (α : Type) where
  name : String
  kind : VariableKind
  lower : α
  upper : α
  /-- Whether some line has set the lower bound. -/
  lowerSet : Bool
deriving Repr

/-- A model as read so far. -/
structure Draft (α : Type) where
  name : String
  sense : Sense
  rows : List (RowDraft α)
  columns : List (ColumnDraft α)
  /-- Whether new columns take only whole numbers. -/
  integerBlock : Bool
  constant : α
deriving Repr

namespace Draft

variable {α : Type}

def initial [Number α] : Draft α := ⟨"", .minimize, [], [], false, 0⟩

/-! ## Looking up -/

def rowIndex? (d : Draft α) (name : String) : Option Nat :=
  d.rows.findIdx? fun r => r.name == name

def columnIndex? (d : Draft α) (name : String) : Option Nat :=
  d.columns.findIdx? fun c => c.name == name

def hasObjective (d : Draft α) : Bool := d.rows.any fun r => r.kind == .objective

def rowKind? (d : Draft α) (row : Nat) : Option RowKind := d.rows[row]?.map (·.kind)

/-! ## Changing -/

def modifyRow (d : Draft α) (row : Nat) (change : RowDraft α → RowDraft α) : Draft α :=
  { d with rows := d.rows.modify row change }

def modifyColumn (d : Draft α) (column : Nat) (change : ColumnDraft α → ColumnDraft α) :
    Draft α :=
  { d with columns := d.columns.modify column change }

def addRow [Number α] (d : Draft α) (name : String) (kind : RowKind) : Draft α :=
  { d with rows := d.rows ++ [⟨name, kind, [], 0, none⟩] }

/-- The position of the column of a name, which is declared if it is new. -/
def ensureColumn [Number α] (d : Draft α) (name : String) : Nat × Draft α :=
  match d.columnIndex? name with
  | some column => (column, d)
  | none =>
    let kind : VariableKind := if d.integerBlock then .integer else .continuous
    (d.columns.length,
      { d with columns := d.columns ++ [⟨name, kind, 0, Number.posInf, false⟩] })

def addEntry (d : Draft α) (row column : Nat) (value : α) : Draft α :=
  d.modifyRow row fun r => { r with terms := r.terms ++ [(column, value)] }

/-- Set a right-hand side. That of the objective is minus its constant. -/
def setRhs [Number α] (d : Draft α) (row : Nat) (value : α) : Draft α :=
  if d.rowKind? row == some .objective then { d with constant := -value }
  else d.modifyRow row fun r => { r with rhs := value }

def setRange (d : Draft α) (row : Nat) (value : α) : Draft α :=
  d.modifyRow row fun r => { r with range := some value }

/-! ## The model -/

variable [Number α]

/-- The expression of entries, over the variables of a model. -/
def expression (id : ModelId) (terms : List (Nat × α)) : Affine α :=
  .ofTerms (terms.map fun (column, value) => (⟨id, column⟩, value))

/-- The ends between which a row with a range must lie. -/
def rangeEnds (relation : Relation) (rhs range : α) : α × α :=
  match relation with
  | .atMost => (rhs - Number.abs range, rhs)
  | .atLeast => (rhs, rhs + Number.abs range)
  | .equal | .differs => if Number.le 0 range then (rhs, rhs + range) else (rhs + range, rhs)

def rowSteps (id : ModelId) (r : RowDraft α) : List (BuildStep α) :=
  match r.kind with
  | .objective | .free => []
  | .constraint relation =>
    let e := expression id r.terms
    match r.range with
    | none => [.constrain (some r.name) e relation r.rhs]
    | some range =>
      let (low, high) := rangeEnds relation r.rhs range
      [.constrain (some (r.name ++ "_lo")) e .atLeast low,
       .constrain (some (r.name ++ "_hi")) e .atMost high]

def objectiveTerms (d : Draft α) : List (Nat × α) :=
  match d.rows.find? fun r => r.kind == .objective with
  | some r => r.terms
  | none => []

def steps (id : ModelId) (d : Draft α) : List (BuildStep α) :=
  d.columns.map (fun c => .declare c.name c.kind ⟨c.lower, c.upper⟩)
  ++ d.rows.flatMap (rowSteps id)
  ++ [.optimize ((expression id d.objectiveTerms).withConstant d.constant) d.sense]

def toModel (id : ModelId) (d : Draft α) : Except (Fault α) (Model α) :=
  Model.build id d.name (d.steps id)

end Draft

end Milp.Mps
