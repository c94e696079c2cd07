/-
`Reader` -- models from MPS texts in free format.

A line is made of fields with blanks between them, so names hold no blanks. A
line that starts with an asterisk is a comment, and lines without fields are
passed over. A line that starts in the first column opens a section; the lines
after it, which start with a blank, are its data. Everything after `ENDATA` is
ignored.

The set names in front of right-hand sides, ranges and bounds may be left out.
Whether one is there is told by the number of fields. Reading stops at the first
line with a fault, and the fault names that line.
-/
import Milp.Files
import Milp.Mps.Draft
import Milp.Text.Blank

set_option autoImplicit false

namespace Milp.Mps

/-! ## Lines -/

/-- A line that says something, as its fields. -/
inductive Line where
  | header (fields : List String)
  | data (fields : List String)
deriving DecidableEq, Repr

/-- What a line says, if it says anything. -/
def Line.ofChars? (cs : List Char) : Option Line :=
  match cs with
  | [] => none
  | first :: _ =>
    -- an asterisk makes a comment only in the first column
    if first = '*' || cs.all Text.isBlank then none
    else if Text.isBlank first then some (.data (Text.words cs))
    else some (.header (Text.words cs))

/-- The lines that say something, each with its number. -/
def numberedLines (text : String) : List (Nat × Line) :=
  (Text.lines text).zipIdx.filterMap fun (cs, index) =>
    (Line.ofChars? cs).map fun line => (index + 1, line)

/-- The parts of an MPS text. -/
inductive Section where
  | start
  | objectiveSense
  | rows
  | columns
  | rhs
  | ranges
  | bounds
  | ended
deriving DecidableEq, Repr

/-! ## Fields -/

variable {α : Type}

def refuse {β : Type} (line : Nat) (detail : String) : Except (Fault α) β :=
  .error (.mps line detail)

/-- The upper-case form of a keyword, in the Latin alphabet. -/
def upperCase (field : String) : String := field.map Char.toUpper

def isApostrophe (c : Char) : Bool := c.toNat = 0x27

def unquote (field : String) : String :=
  String.ofList ((field.toList.dropWhile isApostrophe).reverse.dropWhile isApostrophe).reverse

def readSense (line : Nat) (field : String) : Except (Fault α) Sense :=
  let word := upperCase field
  if word == "MAX" || word == "MAXIMIZE" || word == "MAXIMISE" then .ok .maximize
  else if word == "MIN" || word == "MINIMIZE" || word == "MINIMISE" then .ok .minimize
  else refuse line ("unknown objective sense '" ++ word ++ "'")

variable [Number α]

def readNumber (line : Nat) (field : String) : Except (Fault α) α :=
  match Numeral.ofText field with
  | .error _ => refuse line ("expected a number, found '" ++ field ++ "'")
  | .ok numeral =>
    let value : α := Number.ofNumeral numeral
    if Number.isNaN value then refuse line "NaN is not a valid value" else .ok value

namespace Draft

omit [Number α] in
def readRow (d : Draft α) (line : Nat) (name : String) : Except (Fault α) Nat :=
  match d.rowIndex? name with
  | some row => .ok row
  | none => refuse line ("unknown row '" ++ name ++ "'")

omit [Number α] in
def readColumn (d : Draft α) (line : Nat) (name : String) : Except (Fault α) Nat :=
  match d.columnIndex? name with
  | some column => .ok column
  | none => refuse line ("unknown column '" ++ name ++ "'")

/-! ## Sections -/

def header (d : Draft α) (line : Nat) (fields : List String) :
    Except (Fault α) (Section × Draft α) :=
  match fields with
  | "NAME" :: words => .ok (.start, { d with name := " ".intercalate words })
  | ["OBJSENSE"] => .ok (.objectiveSense, d)
  | "OBJSENSE" :: word :: _ =>
    (readSense line word).map fun sense => (.objectiveSense, { d with sense := sense })
  | "ROWS" :: _ => .ok (.rows, d)
  | "COLUMNS" :: _ => .ok (.columns, d)
  | "RHS" :: _ => .ok (.rhs, d)
  | "RANGES" :: _ => .ok (.ranges, d)
  | "BOUNDS" :: _ => .ok (.bounds, d)
  | "ENDATA" :: _ => .ok (.ended, d)
  | other => refuse line ("unknown section '" ++ other.headD "" ++ "'")

omit [Number α] in
def readRowKind (d : Draft α) (line : Nat) (field : String) : Except (Fault α) RowKind :=
  let word := upperCase field
  -- the first free row is the objective
  if word == "N" then .ok (if d.hasObjective then .free else .objective)
  else if word == "L" then .ok (.constraint .atMost)
  else if word == "G" then .ok (.constraint .atLeast)
  else if word == "E" then .ok (.constraint .equal)
  else refuse line ("unknown row type '" ++ word ++ "'")

def rowLine (d : Draft α) (line : Nat) (fields : List String) : Except (Fault α) (Draft α) :=
  match fields with
  | [kind, name] => do
    let kind ← d.readRowKind line kind
    if (d.rowIndex? name).isSome then refuse line ("row '" ++ name ++ "' declared twice")
    else pure (d.addRow name kind)
  | _ => refuse line "ROWS entries need a type and a name"

omit [Number α] in
/-- Read a line that opens or closes a block of whole columns. -/
def markerLine (d : Draft α) (line : Nat) (field : String) : Except (Fault α) (Draft α) :=
  let word := unquote field
  if word == "INTORG" then .ok { d with integerBlock := true }
  else if word == "INTEND" then .ok { d with integerBlock := false }
  else refuse line ("unknown marker '" ++ word ++ "'")

def entry (column line : Nat) (d : Draft α) (pair : String × String) :
    Except (Fault α) (Draft α) := do
  let row ← d.readRow line pair.1
  let value ← readNumber line pair.2
  if Number.isFinite value then pure (d.addEntry row column value)
  else refuse line ("coefficient " ++ Number.text value ++ " is not finite")

def entryLine (d : Draft α) (line : Nat) (fields : List String) : Except (Fault α) (Draft α) :=
  match fields with
  | [name, row, value] =>
    let (column, d) := d.ensureColumn name
    d.entry column line (row, value)
  | [name, row, value, row', value'] => do
    let (column, d) := d.ensureColumn name
    let d ← d.entry column line (row, value)
    d.entry column line (row', value')
  | _ => refuse line "COLUMNS entries need a column and one or two row/value pairs"

def columnLine (d : Draft α) (line : Nat) (fields : List String) : Except (Fault α) (Draft α) :=
  match fields with
  | _ :: keyword :: marker :: _ =>
    if unquote keyword == "MARKER" then d.markerLine line marker else d.entryLine line fields
  | _ => d.entryLine line fields

omit [Number α] in
/-- The pairs of a row and a value on a line, without the name of the set. -/
def pairs (line : Nat) (title : String) (fields : List String) :
    Except (Fault α) (List (String × String)) :=
  match fields with
  | [row, value] | [_, row, value] => .ok [(row, value)]
  | [row, value, row', value'] | [_, row, value, row', value'] =>
    .ok [(row, value), (row', value')]
  | _ => refuse line (title ++ " entries need one or two row/value pairs")

def rhsPair (line : Nat) (d : Draft α) (pair : String × String) :
    Except (Fault α) (Draft α) := do
  let row ← d.readRow line pair.1
  let value ← readNumber line pair.2
  pure (d.setRhs row value)

def rhsLine (d : Draft α) (line : Nat) (fields : List String) : Except (Fault α) (Draft α) := do
  (← pairs line "RHS" fields).foldlM (rhsPair line) d

def rangePair (line : Nat) (d : Draft α) (pair : String × String) :
    Except (Fault α) (Draft α) := do
  let row ← d.readRow line pair.1
  let value ← readNumber line pair.2
  match d.rowKind? row with
  | some (.constraint _) => pure (d.setRange row value)
  | _ => refuse line ("range on free row '" ++ pair.1 ++ "'")

def rangeLine (d : Draft α) (line : Nat) (fields : List String) :
    Except (Fault α) (Draft α) := do
  (← pairs line "RANGES" fields).foldlM (rangePair line) d

/-! ## Bounds -/

omit [Number α] in
def takesValue (kind : String) : Bool :=
  kind == "UP" || kind == "LO" || kind == "FX" || kind == "LI" || kind == "UI"

/-- The column and the number of a bound line, without the name of the set. Of
two fields after `BV` the first may already be the column. -/
def boundFields (d : Draft α) (line : Nat) (kind : String) (fields : List String) :
    Except (Fault α) (String × α) :=
  if takesValue kind then
    match fields with
    | [column, value] | [_, column, value] =>
      (readNumber line value).map fun number => (column, number)
    | _ => refuse line ("malformed " ++ kind ++ " bound")
  else
    match fields with
    | [column] | [_, column, _] => .ok (column, 0)
    | [first, second] =>
      if kind == "BV" && (d.columnIndex? first).isSome then .ok (first, 0) else .ok (second, 0)
    | _ => refuse line ("malformed " ++ kind ++ " bound")

/-- An upper bound. One below zero takes away a lower bound of zero that no line
has set. -/
def withUpper (c : ColumnDraft α) (value : α) : ColumnDraft α :=
  let lower :=
    if Number.lt value 0 && !c.lowerSet && c.lower == 0 then Number.negInf else c.lower
  { c with lower := lower, upper := value }

omit [Number α] in
def withLower (c : ColumnDraft α) (value : α) : ColumnDraft α :=
  { c with lower := value, lowerSet := true }

/-- What a kind of bound does to a column, if there is such a kind. -/
def boundChange? (kind : String) (value : α) : Option (ColumnDraft α → ColumnDraft α) :=
  if kind == "UP" then some fun c => withUpper c value
  else if kind == "UI" then some fun c => { withUpper c value with kind := .integer }
  else if kind == "LO" then some fun c => withLower c value
  else if kind == "LI" then some fun c => { withLower c value with kind := .integer }
  else if kind == "FX" then some fun c => { withLower c value with upper := value }
  else if kind == "FR" then
    some fun c => { withLower c Number.negInf with upper := Number.posInf }
  else if kind == "MI" then some fun c => withLower c Number.negInf
  else if kind == "PL" then some fun c => { c with upper := Number.posInf }
  else if kind == "BV" then some fun c => { withLower c 0 with kind := .binary, upper := 1 }
  else none

def boundLine (d : Draft α) (line : Nat) (fields : List String) : Except (Fault α) (Draft α) :=
  match fields with
  | [] => .ok d
  | field :: rest => do
    let kind := upperCase field
    let (name, value) ← d.boundFields line kind rest
    let column ← d.readColumn line name
    match boundChange? kind value with
    | some change => pure (d.modifyColumn column change)
    | none => refuse line ("unknown bound type '" ++ kind ++ "'")

def dataLine (d : Draft α) (part : Section) (line : Nat) (fields : List String) :
    Except (Fault α) (Draft α) :=
  match part with
  | .start => refuse line "data line before any section"
  | .objectiveSense =>
    (readSense line (fields.headD "")).map fun sense => { d with sense := sense }
  | .rows => d.rowLine line fields
  | .columns => d.columnLine line fields
  | .rhs => d.rhsLine line fields
  | .ranges => d.rangeLine line fields
  | .bounds => d.boundLine line fields
  | .ended => .ok d

/-! ## Texts -/

/-- Read lines from a section on, up to the end of the data. -/
def readLines (d : Draft α) (part : Section) :
    List (Nat × Line) → Except (Fault α) (Draft α)
  | [] => .ok d
  | (line, .header fields) :: rest => do
    let (next, d) ← d.header line fields
    if next = .ended then pure d else readLines d next rest
  | (line, .data fields) :: rest => do
    let d ← d.dataLine part line fields
    readLines d part rest

def ofText (text : String) : Except (Fault α) (Draft α) :=
  readLines .initial .start (numberedLines text)

end Draft

def read (id : ModelId) (text : String) : Except (Fault α) (Model α) := do
  (← Draft.ofText text).toModel id

def readContent (id : ModelId) (content : FileContent) : Except (Fault α) (Model α) := do
  read id (← content.text)

end Milp.Mps
