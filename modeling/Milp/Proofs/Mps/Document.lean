/-
MPS texts in free format.

A document is an MPS text before it is written: the lines of each section in their order,
with every freedom that the format leaves. Entries come one or two on a line; the lines of
a column need not stand together; whole columns stand in blocks between markers; the names
of sets may be left out, line by line; the sense of the objective may stand beside its
header, below it or nowhere; and the sections after the columns may be missing.

`Document.text` writes it out, with headers from the first column on and data behind one
blank. `Document.content` is what it says. Words carry the proof that they hold no blank,
numbers that they are spelled, so every document can be written; which can be read is said by
`Document.IsProper`.
-/
import Milp.Proofs.Mps.Content
import Milp.Proofs.Mps.Lines

set_option autoImplicit false

namespace Milp.Mps

/-! ## Lines -/

/-- A number as it is written. -/
structure Figure where
  word : Word
  numeral : Numeral
  spelled : Numeral.ofText word.text = .ok numeral

/-- A row, and a number for it. -/
structure Pair where
  row : Word
  figure : Figure

/-- What a line holds: one pair or two. -/
structure Pairs where
  first : Pair
  second : Option Pair

/-- A line with entries of a column. -/
structure EntryLine where
  column : Word
  pairs : Pairs

/-- Lines with entries, between markers if they are about whole columns. -/
structure Block where
  whole : Bool
  lines : List EntryLine

/-- A line with right-hand sides or ranges; it may name its set. -/
structure SetLine where
  set? : Option Word
  pairs : Pairs

/-- A line with a bound; it may name its set. -/
structure BoundLine where
  set? : Option Word
  column : Word
  limit : Limit Figure

/-- A line that declares a row. -/
structure RowLine where
  letter : RowLetter
  name : Word

section Said

variable (α : Type) [Number α]

/-- The number that is written. -/
def Figure.value (f : Figure) : α := Number.ofNumeral f.numeral

/-- What a pair says. -/
def Pair.said (p : Pair) : String × α := (p.row.text, p.figure.value α)

def Pairs.list (p : Pairs) : List Pair := p.first :: p.second.toList

/-- The fields of pairs behind the first row. -/
def Pairs.tail (p : Pairs) : List Word :=
  p.first.figure.word :: p.second.toList.flatMap fun q => [q.row, q.figure.word]

def Pairs.said (p : Pairs) : List (String × α) := p.list.map (Pair.said α)

/-- What a line with entries says. -/
def EntryLine.entries (l : EntryLine) : List (Entry α) :=
  l.pairs.list.map fun q => ⟨l.column.text, q.row.text, q.figure.value α⟩

/-- The row that a line declares. -/
def RowLine.row (l : RowLine) : NamedRow := ⟨l.letter, l.name.text⟩

/-- What a line with a bound says, and of which column. -/
def BoundLine.said (l : BoundLine) : String × Limit α :=
  (l.column.text, l.limit.map (Figure.value α))

end Said

/-! ### The sense of the objective -/

/-- The words for a sense, in capitals. -/
def spellings : Sense → List String
  | .maximize => ["MAX", "MAXIMIZE", "MAXIMISE"]
  | .minimize => ["MIN", "MINIMIZE", "MINIMISE"]

/-- A word for a sense, in letters of either case. -/
structure Spelling where
  word : Word
  sense : Sense
  spelled : upperCase word.text ∈ spellings sense

/-- Where the sense of the objective is said. -/
inductive SenseNote where
  | leftOut
  | bare
  | beside (s : Spelling)
  | below (s : Spelling)

/-- The sense that is said; a small objective by default. -/
def SenseNote.sense : SenseNote → Sense
  | .leftOut | .bare => .minimize
  | .beside s | .below s => s.sense

/-! ## Documents -/

/-- An MPS text before it is written. -/
structure Document where
  title : List Word
  sense : SenseNote
  rows : List RowLine
  blocks : List Block
  rhs? : Option (List SetLine)
  ranges? : Option (List SetLine)
  bounds? : Option (List BoundLine)

/-! ### What a document looks like -/

def SenseNote.lines : SenseNote → List WordLine
  | .leftOut => []
  | .bare => [.header ⟨"OBJSENSE", by decide⟩ [] (by decide)]
  | .beside s => [.header ⟨"OBJSENSE", by decide⟩ [s.word] (by decide)]
  | .below s => [.header ⟨"OBJSENSE", by decide⟩ [] (by decide), .data s.word []]

theorem isWord_letter (letter : RowLetter) : isWord letter.text = true := by
  cases letter <;> decide

def RowLine.line (l : RowLine) : WordLine := .data ⟨l.letter.text, isWord_letter _⟩ [l.name]

def EntryLine.line (l : EntryLine) : WordLine :=
  .data l.column (l.pairs.first.row :: l.pairs.tail)

/-- The line that opens or closes a block of whole columns. -/
def markerLine (opens : Bool) : WordLine :=
  .data ⟨"MARKER", by decide⟩
    [⟨"'MARKER'", by decide⟩,
      if opens then ⟨"'INTORG'", by decide⟩ else ⟨"'INTEND'", by decide⟩]

def Block.wordLines (b : Block) : List WordLine :=
  if b.whole then markerLine true :: b.lines.map (·.line) ++ [markerLine false]
  else b.lines.map (·.line)

def SetLine.line (l : SetLine) : WordLine :=
  match l.set? with
  | none => .data l.pairs.first.row l.pairs.tail
  | some name => .data name (l.pairs.first.row :: l.pairs.tail)

theorem isWord_keyword {β : Type} (l : Limit β) : isWord l.keyword = true := by
  have hword : ∀ word ∈ ["LI", "LO", "UI", "UP", "FX", "FR", "MI", "PL", "BV"],
      isWord word = true := by decide
  exact hword _ l.keyword_mem

def BoundLine.line (l : BoundLine) : WordLine :=
  .data ⟨l.limit.keyword, isWord_keyword _⟩
    (l.set?.toList ++ l.column :: (l.limit.value?.map (·.word)).toList)

/-- A section that may be missing. -/
def sectionLines (header : WordLine) : Option (List WordLine) → List WordLine
  | none => []
  | some lines => header :: lines

namespace Document

variable (d : Document)

def lines : List WordLine :=
  .header ⟨"NAME", by decide⟩ d.title (by decide) :: d.sense.lines
  ++ .header ⟨"ROWS", by decide⟩ [] (by decide) :: d.rows.map (·.line)
  ++ .header ⟨"COLUMNS", by decide⟩ [] (by decide) :: d.blocks.flatMap (·.wordLines)
  ++ sectionLines (.header ⟨"RHS", by decide⟩ [] (by decide)) (d.rhs?.map (·.map (·.line)))
  ++ sectionLines (.header ⟨"RANGES", by decide⟩ [] (by decide)) (d.ranges?.map (·.map (·.line)))
  ++ sectionLines (.header ⟨"BOUNDS", by decide⟩ [] (by decide)) (d.bounds?.map (·.map (·.line)))
  ++ [.header ⟨"ENDATA", by decide⟩ [] (by decide)]

/-- **The document, written out.** -/
def text : String := written d.lines

/-! ### What a document says -/

variable (α : Type) [Number α]

/-- **What the document says**, section by section. -/
def content : Content α where
  name := " ".intercalate (d.title.map (·.text))
  sense := d.sense.sense
  rows := d.rows.map (·.row)
  mentions := d.blocks.flatMap fun b => b.lines.map fun l => (l.column.text, b.whole)
  entries := d.blocks.flatMap fun b => b.lines.flatMap (·.entries α)
  rhs := (d.rhs?.getD []).flatMap (·.pairs.said α)
  ranges := (d.ranges?.getD []).flatMap (·.pairs.said α)
  limits := (d.bounds?.getD []).map (·.said α)

/-- **A document that can be read.** What it says is proper; no row has a name that makes a
marker of an entry; and no set of a binary column's bound has the name of a column. -/
structure IsProper : Prop where
  content : (d.content α).IsProper
  unmarked : ∀ l ∈ d.rows, unquote l.name.text ≠ "MARKER"
  unnamed : ∀ l ∈ d.bounds?.getD [], l.limit.keyword = "BV" →
    ∀ s ∈ l.set?, s.text ∉ (d.content α).columns

/-- Every entry is of a column that is mentioned. -/
theorem mentioned : ∀ e ∈ (d.content α).entries, e.column ∈ (d.content α).columns := by
  intro e he
  obtain ⟨b, hb, he⟩ := List.mem_flatMap.mp he
  obtain ⟨l, hl, he⟩ := List.mem_flatMap.mp he
  obtain ⟨q, -, rfl⟩ := List.mem_map.mp he
  refine List.mem_eraseDups.mpr (List.mem_map.mpr ⟨(l.column.text, b.whole), ?_, rfl⟩)
  exact List.mem_flatMap.mpr ⟨b, hb, List.mem_map.mpr ⟨l, hl, rfl⟩⟩

end Document

end Milp.Mps
