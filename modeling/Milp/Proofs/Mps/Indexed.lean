/-
Reading by positions.

The reader finds rows and columns by searching for their names, takes a line apart by its
shape, and changes a row or a column that it has just found. A program that reads large
texts keeps tables from names to positions beside the rows and the columns instead, takes
the fields of a line by number, and reaches for rows and columns by position. Nothing in the
shape of such a program keeps a position in range.

This file writes the reader that way. `Indexed` is a draft with the two tables and the
position of the objective row; they are changed one after the other, and a line that is
refused leaves what it has changed until then. An `Access` changes it and comes to a result
or a fault, or to nothing at all if it reaches for a position that is not there. The rules
of the format -- the words for a sense, numbers, what a kind of bound does to a column --
are those of the reader; what is written anew is every access.

That each of these accesses reaches only for what is there, and comes to what the reader
comes to, is shown line by line in `Milp.Proofs.Mps.Accesses` and for whole texts in
`Milp.Proofs.Mps.InRange`.
-/
import Milp.Mps.Reader
import Milp.Number.ExtRat

set_option autoImplicit false

namespace Milp.Mps

/-- A draft with tables. -/
structure Indexed (α : Type) extends Draft α where
  /-- The positions of rows by name, the last one first. -/
  rowTable : List (String × Nat)
  /-- The positions of columns by name, the last one first. -/
  columnTable : List (String × Nat)
  objectiveRow : Option Nat
deriving Repr

/-- A change of the tables and the draft. It leaves what it has changed even if it comes to
a fault; it has no outcome if it reaches out of range. -/
def Access (α β : Type) := Indexed α → Option (Except (Fault α) β × Indexed α)

namespace Access

variable {α β γ : Type}

instance : Monad (Access α) where
  pure b := fun s => some (.ok b, s)
  bind x f := fun s =>
    match x s with
    | none => none
    | some (.ok b, s) => f b s
    | some (.error fault, s) => some (.error fault, s)

/-! ## Accesses -/

/-- The draft and the tables as they are. -/
def state : Access α (Indexed α) := fun s => some (.ok s, s)

def change (f : Indexed α → Indexed α) : Access α Unit := fun s => some (.ok (), f s)

/-- A result or a fault that does not depend on the draft. -/
def lift (x : Except (Fault α) β) : Access α β := fun s => some (x, s)

/-- The item at a position, which must be in range. -/
def item (items : List β) (i : Nat) : Access α β := fun s =>
  (items[i]?).map fun b => (.ok b, s)

/-- The items from a position on, which may be the end but not behind it. -/
def itemsFrom (items : List β) (i : Nat) : Access α (List β) := fun s =>
  if i ≤ items.length then some (.ok (items.drop i), s) else none

/-- Change the row at a position, which must be in range. -/
def changeRow (row : Nat) (f : RowDraft α → RowDraft α) : Access α Unit := fun s =>
  if row < s.rows.length then some (.ok (), { s with rows := s.rows.modify row f }) else none

/-- Change the column at a position, which must be in range. -/
def changeColumn (column : Nat) (f : ColumnDraft α → ColumnDraft α) : Access α Unit := fun s =>
  if column < s.columns.length then
    some (.ok (), { s with columns := s.columns.modify column f })
  else none

/-- Do something with each of several items, up to the first fault. -/
def each (f : β → Access α Unit) : List β → Access α Unit
  | [] => pure ()
  | b :: rest => do
    f b
    each f rest

end Access

/-- Fields two at a time; the last piece may be a single one. -/
def chunks : List String → List (List String)
  | [] => []
  | [field] => [[field]]
  | first :: second :: rest => [first, second] :: chunks rest

namespace Indexed

open Access (state change lift item itemsFrom changeRow changeColumn each)

variable {α : Type} [Number α]

def initial : Indexed α := ⟨.initial, [], [], none⟩

/-- There is no item behind the end. -/
example : (item ["NAME"] 1 : Access ExtRat String) initial = none := rfl

/-! ## Names -/

omit [Number α] in
def readRow (line : Nat) (name : String) : Access α Nat := do
  let s ← state
  match s.rowTable.lookup name with
  | some row => pure row
  | none => lift (refuse line ("unknown row '" ++ name ++ "'"))

omit [Number α] in
def readColumn (line : Nat) (name : String) : Access α Nat := do
  let s ← state
  match s.columnTable.lookup name with
  | some column => pure column
  | none => lift (refuse line ("unknown column '" ++ name ++ "'"))

/-! ## Rows and columns -/

omit [Number α] in
def header (line : Nat) (fields : List String) : Access α Section := do
  let word ← item fields 0
  if word == "NAME" then
    let words ← itemsFrom fields 1
    change fun s => { s with name := " ".intercalate words }
    pure .start
  else if word == "OBJSENSE" then
    match fields[1]? with
    | some field =>
      let sense ← lift (readSense line field)
      change fun s => { s with sense := sense }
      pure .objectiveSense
    | none => pure .objectiveSense
  else if word == "ROWS" then pure .rows
  else if word == "COLUMNS" then pure .columns
  else if word == "RHS" then pure .rhs
  else if word == "RANGES" then pure .ranges
  else if word == "BOUNDS" then pure .bounds
  else if word == "ENDATA" then pure .ended
  else lift (refuse line ("unknown section '" ++ word ++ "'"))

omit [Number α] in
def readRowKind (line : Nat) (field : String) : Access α RowKind := do
  let s ← state
  let word := upperCase field
  if word == "N" then pure (if s.objectiveRow.isNone then .objective else .free)
  else if word == "L" then pure (.constraint .atMost)
  else if word == "G" then pure (.constraint .atLeast)
  else if word == "E" then pure (.constraint .equal)
  else lift (refuse line ("unknown row type '" ++ word ++ "'"))

/-- Enter a new row at the end, in the table and in the list. -/
def addRow (name : String) (kind : RowKind) : Access α Unit := do
  let s ← state
  let row := s.rows.length
  if kind = .objective then change fun s => { s with objectiveRow := some row }
  change fun s => { s with rowTable := (name, row) :: s.rowTable }
  change fun s => { s with rows := s.rows ++ [⟨name, kind, [], 0, none⟩] }

def rowLine (line : Nat) (fields : List String) : Access α Unit :=
  match fields with
  | [letter, name] => do
    let kind ← readRowKind line letter
    let s ← state
    if (s.rowTable.lookup name).isSome then
      lift (refuse line ("row '" ++ name ++ "' declared twice"))
    else addRow name kind
  | _ => lift (refuse line "ROWS entries need a type and a name")

/-- The position of the column of a name, which is entered if it is new. -/
def ensureColumn (name : String) : Access α Nat := do
  let s ← state
  match s.columnTable.lookup name with
  | some column => pure column
  | none =>
    let column := s.columns.length
    let kind : VariableKind := if s.integerBlock then .integer else .continuous
    change fun s => { s with columnTable := (name, column) :: s.columnTable }
    change fun s => { s with columns := s.columns ++ [⟨name, kind, 0, Number.posInf, false⟩] }
    pure column

def entry (column line : Nat) (pair : List String) : Access α Unit := do
  let name ← item pair 0
  let row ← readRow line name
  let field ← item pair 1
  let value ← lift (readNumber line field)
  if Number.isFinite value then
    changeRow row fun r => { r with terms := r.terms ++ [(column, value)] }
  else lift (refuse line ("coefficient " ++ Number.text value ++ " is not finite"))

omit [Number α] in
def markerLine (line : Nat) (fields : List String) : Access α Unit := do
  let field ← item fields 2
  let word := unquote field
  if word == "INTORG" then change fun s => { s with integerBlock := true }
  else if word == "INTEND" then change fun s => { s with integerBlock := false }
  else lift (refuse line ("unknown marker '" ++ word ++ "'"))

def entryLine (line : Nat) (fields : List String) : Access α Unit := do
  if fields.length ≠ 3 ∧ fields.length ≠ 5 then
    lift (refuse line "COLUMNS entries need a column and one or two row/value pairs")
  else
    let name ← item fields 0
    let column ← ensureColumn name
    let pairs ← itemsFrom fields 1
    each (entry column line) (chunks pairs)

def columnLine (line : Nat) (fields : List String) : Access α Unit := do
  if 3 ≤ fields.length then
    let keyword ← item fields 1
    if unquote keyword == "MARKER" then markerLine line fields else entryLine line fields
  else entryLine line fields

/-! ## Right-hand sides and ranges -/

omit [Number α] in
/-- The pairs of a line, without the name of the set. -/
def pairs (line : Nat) (title : String) (fields : List String) :
    Access α (List (List String)) := do
  if fields.length = 2 ∨ fields.length = 4 then pure (chunks fields)
  else if fields.length = 3 ∨ fields.length = 5 then
    let rest ← itemsFrom fields 1
    pure (chunks rest)
  else lift (refuse line (title ++ " entries need one or two row/value pairs"))

def rhsPair (line : Nat) (pair : List String) : Access α Unit := do
  let name ← item pair 0
  let row ← readRow line name
  let field ← item pair 1
  let value ← lift (readNumber line field)
  let s ← state
  if some row = s.objectiveRow then change fun s => { s with constant := -value }
  else changeRow row fun r => { r with rhs := value }

def rhsLine (line : Nat) (fields : List String) : Access α Unit := do
  let entries ← pairs line "RHS" fields
  each (rhsPair line) entries

def rangePair (line : Nat) (pair : List String) : Access α Unit := do
  let name ← item pair 0
  let row ← readRow line name
  let field ← item pair 1
  let value ← lift (readNumber line field)
  let s ← state
  let r ← item s.rows row
  match r.kind with
  | .constraint _ => changeRow row fun r => { r with range := some value }
  | .objective | .free => lift (refuse line ("range on free row '" ++ r.name ++ "'"))

def rangeLine (line : Nat) (fields : List String) : Access α Unit := do
  let entries ← pairs line "RANGES" fields
  each (rangePair line) entries

/-! ## Bounds -/

/-- The column and the number of a bound line, without the name of the set. -/
def boundFields (line : Nat) (kind : String) (fields : List String) :
    Access α (String × α) := do
  match Draft.takesValue kind, fields.length with
  | true, 3 =>
    let column ← item fields 1
    let field ← item fields 2
    let value ← lift (readNumber line field)
    pure (column, value)
  | true, 4 =>
    let column ← item fields 2
    let field ← item fields 3
    let value ← lift (readNumber line field)
    pure (column, value)
  | false, 2 =>
    let column ← item fields 1
    pure (column, 0)
  | false, 3 =>
    if kind == "BV" then
      let s ← state
      let first ← item fields 1
      if (s.columnTable.lookup first).isSome then pure (first, 0)
      else
        let second ← item fields 2
        pure (second, 0)
    else
      let second ← item fields 2
      pure (second, 0)
  | false, 4 =>
    let column ← item fields 2
    pure (column, 0)
  | _, _ => lift (refuse line ("malformed " ++ kind ++ " bound"))

def boundLine (line : Nat) (fields : List String) : Access α Unit := do
  let field ← item fields 0
  let kind := upperCase field
  let target ← boundFields line kind fields
  let column ← readColumn line target.1
  -- the column is taken before the kind of the bound is judged
  let s ← state
  let _ ← item s.columns column
  match Draft.boundChange? kind target.2 with
  | some f => changeColumn column f
  | none => lift (refuse line ("unknown bound type '" ++ kind ++ "'"))

/-! ## Texts -/

def dataLine (part : Section) (line : Nat) (fields : List String) : Access α Unit :=
  match part with
  | .start => lift (refuse line "data line before any section")
  | .objectiveSense => do
    let field ← item fields 0
    let sense ← lift (readSense line field)
    change fun s => { s with sense := sense }
  | .rows => rowLine line fields
  | .columns => columnLine line fields
  | .rhs => rhsLine line fields
  | .ranges => rangeLine line fields
  | .bounds => boundLine line fields
  | .ended => pure ()

/-- Read lines from a section on, up to the end of the data; the result is the section in
which reading stops. -/
def readLines (part : Section) : List (Nat × Line) → Access α Section
  | [] => pure part
  | (line, .header fields) :: rest => do
    let next ← header line fields
    if next = .ended then pure .ended else readLines next rest
  | (line, .data fields) :: rest => do
    dataLine part line fields
    readLines part rest

/-! ## The model -/

/-- Declare columns one after the other, and keep the references that are given out. -/
def declareAll (m : Model α) : List (ColumnDraft α) →
    Except (Fault α) (List Handle × Model α)
  | [] => .ok ([], m)
  | c :: rest => do
    let (h, m) ← m.declare c.name c.kind ⟨c.lower, c.upper⟩
    let (handles, m) ← declareAll m rest
    pure (h :: handles, m)

/-- The expression of entries; every column must have been given a reference. -/
def expression? (handles : List Handle) (terms : List (Nat × α)) : Option (Affine α) :=
  (terms.mapM fun (t : Nat × α) => (handles[t.1]?).map fun h => (h, t.2)).map .ofTerms

/-- Go on from a result, if there is one. -/
def andThen {β γ : Type} (x : Except (Fault α) β) (next : β → Option (Except (Fault α) γ)) :
    Option (Except (Fault α) γ) :=
  match x with
  | .error fault => some (.error fault)
  | .ok b => next b

/-- Add the constraints of a row. The entries are looked up anew for each. -/
def addRowTo (handles : List Handle) (m : Model α) (r : RowDraft α) :
    Option (Except (Fault α) (Model α)) :=
  match r.kind with
  | .objective | .free => some (.ok m)
  | .constraint relation =>
    match r.range with
    | none => do
      let e ← expression? handles r.terms
      some ((m.addNamedConstraint r.name e relation r.rhs).map Prod.snd)
    | some range => do
      let (low, high) := Draft.rangeEnds relation r.rhs range
      let e ← expression? handles r.terms
      andThen ((m.addNamedConstraint (r.name ++ "_lo") e .atLeast low).map Prod.snd) fun m => do
        let e ← expression? handles r.terms
        some ((m.addNamedConstraint (r.name ++ "_hi") e .atMost high).map Prod.snd)

def addRows (handles : List Handle) (m : Model α) :
    List (RowDraft α) → Option (Except (Fault α) (Model α))
  | [] => some (.ok m)
  | r :: rest => do
    let added ← addRowTo handles m r
    andThen added fun m => addRows handles m rest

/-- The expression of the objective row, which must be in range if there is one. -/
def objective? (s : Indexed α) (handles : List Handle) : Option (Affine α) :=
  match s.objectiveRow with
  | none => some .zero
  | some row => do
    let r ← s.rows[row]?
    expression? handles r.terms

/-- Turn what has been read into a model; nothing if a reference or a row is out of
range. -/
def assemble (s : Indexed α) (id : ModelId) : Option (Except (Fault α) (Model α)) :=
  andThen (declareAll (Model.empty id s.name) s.columns) fun (handles, m) => do
    let added ← addRows handles m s.rows
    andThen added fun m => do
      let e ← s.objective? handles
      some (m.setObjective (e.withConstant s.constant) s.sense)

/-- Read a text by positions; nothing if some position is out of range on the way. -/
def read (id : ModelId) (text : String) : Option (Except (Fault α) (Model α)) := do
  let (outcome, s) ← readLines .start (numberedLines text) initial
  andThen outcome fun _ => s.assemble id

end Indexed

end Milp.Mps
