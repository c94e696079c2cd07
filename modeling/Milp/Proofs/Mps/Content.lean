/-
What an MPS text says, apart from how it is laid out.

The content of a text is a few lists: rows, the columns as they are named, entries, and
what is said of right-hand sides, ranges and bounds, each in the order read. The model that
such a content describes is written down here item by item (`Content.model`), without any
reading: a variable for each column, a constraint or two for each row that is not free, the
objective of the first free row.

A proper content (`Content.IsProper`) refers only to what it declares and says everything
at most once; then the draft that the reader builds up (`Content.draft`) becomes that model
(`toModel_draft`). How the reader gets to the draft is the matter of
`Milp.Proofs.Mps.Drafting`.
-/
import Milp.Mps.Draft
import Milp.Proofs.Model.Accepted
import Milp.Proofs.Number.Finite

set_option autoImplicit false

namespace Milp.Mps

open Number (Finitary)

/-! ## Rows and bounds -/

/-- The letter in front of a row. -/
inductive RowLetter where
  | free
  | atMost
  | atLeast
  | equal
deriving DecidableEq, Repr

def RowLetter.text : RowLetter → String
  | .free => "N"
  | .atMost => "L"
  | .atLeast => "G"
  | .equal => "E"

/-- The relation of the constraint that a row stands for, if it stands for one. -/
def RowLetter.relation? : RowLetter → Option Relation
  | .free => none
  | .atMost => some .atMost
  | .atLeast => some .atLeast
  | .equal => some .equal

/-- A row as it is declared. -/
structure NamedRow where
  letter : RowLetter
  name : String
deriving DecidableEq, Repr

/-- What a bound line says of its column. Some lines make the column whole besides. -/
inductive Limit (β : Type) where
  | lower (whole : Bool) (value : β)
  | upper (whole : Bool) (value : β)
  | fixed (value : β)
  | free
  | noLower
  | noUpper
  | binary
deriving Repr

/-- The word in front of a bound line. -/
def Limit.keyword {β : Type} : Limit β → String
  | .lower whole _ => if whole then "LI" else "LO"
  | .upper whole _ => if whole then "UI" else "UP"
  | .fixed _ => "FX"
  | .free => "FR"
  | .noLower => "MI"
  | .noUpper => "PL"
  | .binary => "BV"

theorem Limit.keyword_mem {β : Type} (l : Limit β) :
    l.keyword ∈ ["LI", "LO", "UI", "UP", "FX", "FR", "MI", "PL", "BV"] := by
  cases l with
  | lower whole value => cases whole <;> simp [keyword]
  | upper whole value => cases whole <;> simp [keyword]
  | _ => simp [keyword]

namespace Limit

variable {α : Type} [Number α]

/-- The lower end that is set, if one is. -/
def lower? : Limit α → Option α
  | .lower _ value | .fixed value => some value
  | .free | .noLower => some Number.negInf
  | .binary => some 0
  | .upper _ _ | .noUpper => none

/-- The upper end that is set, if one is. -/
def upper? : Limit α → Option α
  | .upper _ value | .fixed value => some value
  | .free | .noUpper => some Number.posInf
  | .binary => some 1
  | .lower _ _ | .noLower => none

/-- An upper end below zero. -/
def isNegativeUpper : Limit α → Bool
  | .upper _ value => Number.lt value 0
  | _ => false

omit [Number α] in
def isWhole : Limit α → Bool
  | .lower whole _ | .upper whole _ => whole
  | _ => false

omit [Number α] in
def isBinary : Limit α → Bool
  | .binary => true
  | _ => false

/-- The value that is given, if one is. -/
def value? {β : Type} : Limit β → Option β
  | .lower _ value | .upper _ value | .fixed value => some value
  | _ => none

def map {β γ : Type} (f : β → γ) : Limit β → Limit γ
  | .lower whole value => .lower whole (f value)
  | .upper whole value => .upper whole (f value)
  | .fixed value => .fixed (f value)
  | .free => .free
  | .noLower => .noLower
  | .noUpper => .noUpper
  | .binary => .binary

/-- Neither says anything about a side of which the other says something. -/
def Compatible (l k : Limit α) : Prop :=
  ¬ (l.lower?.isSome ∧ k.lower?.isSome) ∧ ¬ (l.upper?.isSome ∧ k.upper?.isSome)

instance (l k : Limit α) : Decidable (l.Compatible k) := inferInstanceAs (Decidable (_ ∧ _))

/-! ### A column with its bound lines -/

/-- The lower end: what a line says; otherwise minus infinity under an upper end below
zero, and zero by default. -/
def lowerEnd (limits : List (Limit α)) : α :=
  (limits.findSome? lower?).getD (if limits.any isNegativeUpper then Number.negInf else 0)

/-- The upper end: what a line says, and infinity by default. -/
def upperEnd (limits : List (Limit α)) : α := (limits.findSome? upper?).getD Number.posInf

def ends (limits : List (Limit α)) : Interval α := ⟨lowerEnd limits, upperEnd limits⟩

omit [Number α] in
/-- The kind of a column that may have been declared among whole ones. -/
def kind (whole : Bool) (limits : List (Limit α)) : VariableKind :=
  if limits.any isBinary then .binary
  else if whole || limits.any isWhole then .integer
  else .continuous

/-- The column as the reader keeps it. -/
def draft (column : String) (whole : Bool) (limits : List (Limit α)) : ColumnDraft α where
  name := column
  kind := kind whole limits
  lower := lowerEnd limits
  upper := upperEnd limits
  lowerSet := (limits.findSome? lower?).isSome

end Limit

/-! ## Contents -/

/-- An entry of the matrix. -/
structure Entry (α : Type) where
  column : String
  row : String
  value : α
deriving Repr

/-- What a text says. -/
structure Content (α : Type) where
  name : String
  sense : Sense
  rows : List NamedRow
  /-- Columns in the order in which lines are about them, and whether among whole ones. -/
  mentions : List (String × Bool)
  entries : List (Entry α)
  rhs : List (String × α)
  ranges : List (String × α)
  limits : List (String × Limit α)

namespace Content

variable {α : Type} (c : Content α)

/-- The columns in the order of their first mention. -/
def columns : List String := (c.mentions.map Prod.fst).eraseDups

/-- Whether a column was first mentioned among whole ones. -/
def isWhole (column : String) : Bool := (c.mentions.lookup column).getD false

/-- What is said of the bounds of a column. -/
def limitsOf (column : String) : List (Limit α) :=
  (c.limits.filter fun l => l.1 == column).map Prod.snd

def rowNames : List String := c.rows.map (·.name)

/-- The row of the objective: the first free one. -/
def objectiveRow? : Option NamedRow := c.rows.find? fun r => r.letter == .free

/-- The entries of a row, as columns and coefficients. -/
def termsOf (row : String) : List (Nat × α) :=
  (c.entries.filter fun e => e.row == row).map fun e => (c.columns.idxOf e.column, e.value)

/-! ### The model described -/

variable [Number α]

/-- The right-hand side of a row, zero by default. -/
def rhsOf (row : String) : α := (c.rhs.lookup row).getD 0

/-- The constant of the objective: minus the right-hand side of its row. -/
def constant : α :=
  match c.objectiveRow? with
  | some r => ((c.rhs.lookup r.name).map (- ·)).getD 0
  | none => 0

def variableOf (column : String) : Variable α where
  name := column
  kind := Limit.kind (c.isWhole column) (c.limitsOf column)
  bounds := Limit.ends (c.limitsOf column)

/-- The entries of a row as terms over the variables, each variable once. -/
def rowTerms (id : ModelId) (row : String) : List (Handle × α) :=
  (Affine.ofTerms ((c.termsOf row).map fun (column, value) =>
    (⟨id, column⟩, value))).normalizedTerms

/-- The ends between which a row with a range must lie. -/
def rangeSides (letter : RowLetter) (rhs range : α) : α × α :=
  match letter with
  | .atMost => (rhs - Number.abs range, rhs)
  | .atLeast => (rhs, rhs + Number.abs range)
  | .equal | .free => if Number.le 0 range then (rhs, rhs + range) else (rhs + range, rhs)

/-- The constraints that a row stands for. -/
def constraintsOf (id : ModelId) (r : NamedRow) : List (Constraint α) :=
  match r.letter.relation?, c.ranges.lookup r.name with
  | none, _ => []
  | some relation, none => [⟨r.name, c.rowTerms id r.name, relation, c.rhsOf r.name⟩]
  | some _, some range =>
    let (low, high) := rangeSides r.letter (c.rhsOf r.name) range
    [⟨r.name ++ "_lo", c.rowTerms id r.name, .atLeast, low⟩,
      ⟨r.name ++ "_hi", c.rowTerms id r.name, .atMost, high⟩]

def objective (id : ModelId) : Objective α where
  sense := c.sense
  terms := (c.objectiveRow?.map fun r => c.rowTerms id r.name).getD []
  constant := c.constant

/-- **The model that a content describes.** -/
def model (id : ModelId) : Model α where
  id := id
  name := c.name
  vars := c.columns.map c.variableOf
  constraints := c.rows.flatMap (c.constraintsOf id)
  objective := c.objective id

/-! ### Proper contents -/

/-- **A content that can be read.** Rows are distinct, everything is about a row or a
column that is declared, no right-hand side, range or side of a bound is given twice,
numbers are finite, and each column has bounds between which there is something. -/
structure IsProper : Prop where
  rows : c.rowNames.Nodup
  entries : ∀ e ∈ c.entries, e.row ∈ c.rowNames ∧ Number.isFinite e.value = true
  rhs : ∀ p ∈ c.rhs, p.1 ∈ c.rowNames ∧ Number.isFinite p.2 = true
  rhsOnce : (c.rhs.map Prod.fst).Nodup
  ranges : ∀ p ∈ c.ranges, (∃ r ∈ c.rows, r.name = p.1 ∧ r.letter ≠ .free)
    ∧ Number.isFinite p.2 = true
  rangesOnce : (c.ranges.map Prod.fst).Nodup
  limits : ∀ l ∈ c.limits, l.1 ∈ c.columns ∧ ∀ value ∈ l.2.value?, Number.isFinite value = true
  limitsOnce : c.limits.Pairwise fun l k => l.1 = k.1 → l.2.Compatible k.2
  bounds : ∀ column ∈ c.columns, (Limit.ends (c.limitsOf column)).isValid = true

/-! ### The draft of a content -/

omit [Number α] in
/-- What a row is for. -/
def rowKind (r : NamedRow) : RowKind :=
  match r.letter.relation? with
  | some relation => .constraint relation
  | none => if c.objectiveRow? = some r then .objective else .free

/-- A row once everything is read. The right-hand side of the objective is kept apart. -/
def rowDraft (r : NamedRow) : RowDraft α where
  name := r.name
  kind := c.rowKind r
  terms := c.termsOf r.name
  rhs := if c.rowKind r = .objective then 0 else c.rhsOf r.name
  range := c.ranges.lookup r.name

def columnDraft (column : String) : ColumnDraft α :=
  Limit.draft column (c.isWhole column) (c.limitsOf column)

/-- The draft once everything is read, where whole columns may still come. -/
def draft (whole : Bool) : Draft α where
  name := c.name
  sense := c.sense
  rows := c.rows.map c.rowDraft
  columns := c.columns.map c.columnDraft
  integerBlock := whole
  constant := c.constant

end Content

/-! ## From the draft to the model -/

/-- Of functions that at most one item has a value under, the value is that of the item. -/
theorem findSome?_of_mem {β γ : Type} {f : β → Option γ} {items : List β}
    (once : items.Pairwise fun a b => ¬ ((f a).isSome ∧ (f b).isSome)) {b : β} (hb : b ∈ items)
    (hsome : (f b).isSome) : items.findSome? f = f b := by
  induction items with
  | nil => cases hb
  | cons a items ih =>
    obtain ⟨hfirst, hrest⟩ := List.pairwise_cons.mp once
    rw [List.findSome?_cons]
    rcases List.mem_cons.mp hb with rfl | hmem
    · obtain ⟨v, hv⟩ := Option.isSome_iff_exists.mp hsome
      rw [hv]
    · have hnone : f a = none := by
        by_contra hne
        exact hfirst b hmem ⟨Option.isSome_iff_ne_none.mpr hne, hsome⟩
      rw [hnone]
      exact ih hrest hmem

/-- What is looked up was said of the key. -/
theorem mem_of_lookup {β : Type} {said : List (String × β)} {key : String} {b : β}
    (h : said.lookup key = some b) : (key, b) ∈ said := by
  obtain ⟨before, after, heq, -⟩ := List.lookup_eq_some_iff.mp h
  rw [heq]
  simp

/-- Only what is new is kept of one more item. -/
theorem eraseDups_concat {β : Type} [DecidableEq β] (items : List β) (b : β) :
    (items ++ [b]).eraseDups
      = if b ∈ items then items.eraseDups else items.eraseDups ++ [b] := by
  rw [List.eraseDups_append]
  split
  · rename_i hmem
    simp [List.removeAll, hmem]
  · rename_i hnew
    simp [List.removeAll, hnew, List.eraseDups_cons]

theorem nodup_eraseDups {β : Type} [DecidableEq β] (items : List β) : items.eraseDups.Nodup := by
  induction items using List.reverseRecOn with
  | nil => exact List.nodup_nil
  | append_singleton items b ih =>
    rw [eraseDups_concat]
    split
    · exact ih
    · rename_i hnew
      rw [← List.concat_eq_append]
      exact ih.concat fun hmem => hnew (List.mem_eraseDups.mp hmem)

namespace Content

variable {α : Type} [Number α] {c : Content α}

theorem IsProper.compatible (h : c.IsProper) (column : String) :
    (c.limitsOf column).Pairwise Limit.Compatible := by
  rw [limitsOf, List.pairwise_map]
  refine (h.limitsOnce.filter _).imp_of_mem fun {l k} hl hk hcompatible => hcompatible ?_
  have hfirst : l.1 = column := by simpa using (List.mem_filter.mp hl).2
  have hsecond : k.1 = column := by simpa using (List.mem_filter.mp hk).2
  rw [hfirst, hsecond]

/-- A binary column has no other bounds than its own. -/
theorem IsProper.ends_of_isBinary (h : c.IsProper) {column : String}
    (binary : (c.limitsOf column).any Limit.isBinary = true) :
    Limit.ends (c.limitsOf column) = Interval.unit := by
  obtain ⟨l, hl, hbinary⟩ := List.any_eq_true.mp binary
  obtain rfl : l = .binary := by
    cases l <;> first | rfl | cases hbinary
  have hlower := findSome?_of_mem ((h.compatible column).imp And.left) hl rfl
  have hupper := findSome?_of_mem ((h.compatible column).imp And.right) hl rfl
  rw [Limit.ends, Limit.lowerEnd, Limit.upperEnd, hlower, hupper]
  rfl

/-- What is declared of a column is what is stored. -/
theorem IsProper.isSettled (h : c.IsProper) {column : String} (hmem : column ∈ c.columns) :
    (c.variableOf column).IsSettled := by
  refine ⟨?_, h.bounds column hmem⟩
  show (Limit.kind _ _).effectiveBounds (Limit.ends _) = Limit.ends _
  rw [Limit.kind]
  split
  · rename_i hbinary
    have hcut : (Interval.unit : Interval α).intersect .unit = .unit := by
      show Interval.mk (Number.max 0 0) (Number.min 1 1) = _
      rw [Number.max, ite_self, Number.min, ite_self]
      rfl
    rw [h.ends_of_isBinary hbinary]
    exact hcut
  · split <;> rfl

/-! ### Constraints -/

section Building

variable [Finitary α] {id : ModelId}

theorem IsProper.isFinite_rhsOf (h : c.IsProper) (row : String) :
    Number.isFinite (c.rhsOf row) = true := by
  rw [rhsOf]
  cases hlookup : c.rhs.lookup row with
  | none => exact Finitary.isFinite_zero
  | some value => exact (h.rhs _ (mem_of_lookup hlookup)).2

theorem IsProper.isFinite_constant (h : c.IsProper) : Number.isFinite c.constant = true := by
  rw [constant]
  split
  · rename_i r _
    cases hlookup : c.rhs.lookup r.name with
    | none => exact Finitary.isFinite_zero
    | some value => exact Finitary.isFinite_neg _ (h.rhs _ (mem_of_lookup hlookup)).2
  · exact Finitary.isFinite_zero

/-- The ends of a range are numbers. -/
theorem isNaN_rangeSides (letter : RowLetter) {rhs range : α}
    (hrhs : Number.isFinite rhs = true) (hrange : Number.isFinite range = true) :
    Number.isNaN (rangeSides letter rhs range).1 = false
      ∧ Number.isNaN (rangeSides letter rhs range).2 = false := by
  have hself := Finitary.isNaN_of_isFinite rhs hrhs
  have habs := Finitary.isFinite_abs range hrange
  have hsum := Finitary.isNaN_add rhs range hrhs hrange
  have hequal : Number.isNaN (if Number.le 0 range then (rhs, rhs + range)
        else (rhs + range, rhs)).1 = false
      ∧ Number.isNaN (if Number.le 0 range then (rhs, rhs + range)
        else (rhs + range, rhs)).2 = false := by
    split
    · exact ⟨hself, hsum⟩
    · exact ⟨hsum, hself⟩
  cases letter with
  | atMost => exact ⟨Finitary.isNaN_sub _ _ hrhs habs, hself⟩
  | atLeast => exact ⟨hself, Finitary.isNaN_add _ _ hrhs habs⟩
  | equal => exact hequal
  | free => exact hequal

omit [Finitary α] in
theorem rangeEnds_eq {letter : RowLetter} {relation : Relation}
    (h : letter.relation? = some relation) (rhs range : α) :
    Draft.rangeEnds relation rhs range = rangeSides letter rhs range := by
  cases letter <;> cases h <;> rfl

omit [Finitary α] in
/-- A model with the columns and nothing else. -/
def columnModel (c : Content α) (id : ModelId) : Model α :=
  .ofVariables id c.name (c.columns.map c.variableOf)

omit [Finitary α] in
/-- The entries of a row are terms over the variables. -/
theorem IsProper.takes (h : c.IsProper) (mentioned : ∀ e ∈ c.entries, e.column ∈ c.columns)
    (row : String) : (c.columnModel id).Takes (Draft.expression id (c.termsOf row)) := by
  intro t ht
  obtain ⟨term, hterm, rfl⟩ := List.mem_map.mp ht
  obtain ⟨e, he, rfl⟩ := List.mem_map.mp hterm
  have he := (List.mem_filter.mp he).1
  refine ⟨?_, (h.entries e he).2⟩
  have hlt : c.columns.idxOf e.column < (c.columns.map c.variableOf).length := by
    rw [List.length_map]
    exact List.idxOf_lt_length_of_mem (mentioned e he)
  exact Bool.and_eq_true_iff.mpr ⟨beq_self_eq_true id, decide_eq_true hlt⟩

/-- A constraint over the entries of a row is added as it is described. -/
theorem IsProper.apply_constrain (h : c.IsProper)
    (mentioned : ∀ e ∈ c.entries, e.column ∈ c.columns) (cs : List (Constraint α))
    (row name : String) (relation : Relation) {rhs : α} (number : Number.isNaN rhs = false) :
    ((c.columnModel id).withConstraints cs).apply
        (.constrain (some name) (Draft.expression id (c.termsOf row)) relation rhs)
      = .ok ((c.columnModel id).withConstraints
          (cs ++ [⟨name, c.rowTerms id row, relation, rhs⟩])) := by
  have htakes : ((c.columnModel id).withConstraints cs).Takes
      (Draft.expression id (c.termsOf row)) := h.takes mentioned row
  rw [Model.apply_constrain number htakes, Model.withConstraint, Model.withConstraints,
    Model.withConstraints, List.append_assoc]
  show Except.ok _ = _
  rw [show rhs - (Draft.expression id (c.termsOf row)).constant = rhs from
    Finitary.sub_zero rhs number]
  rfl

/-- **A row becomes the constraints that it stands for.** -/
theorem IsProper.applyAll_rowSteps (h : c.IsProper)
    (mentioned : ∀ e ∈ c.entries, e.column ∈ c.columns) (r : NamedRow)
    (cs : List (Constraint α)) :
    ((c.columnModel id).withConstraints cs).applyAll (Draft.rowSteps id (c.rowDraft r))
      = .ok ((c.columnModel id).withConstraints (cs ++ c.constraintsOf id r)) := by
  have hrhs := h.isFinite_rhsOf r.name
  cases hrelation : r.letter.relation? with
  | none =>
    have hsteps : Draft.rowSteps id (c.rowDraft r) = [] := by
      have hkind : c.rowKind r = if c.objectiveRow? = some r then .objective else .free := by
        rw [rowKind, hrelation]
      rw [Draft.rowSteps, rowDraft, hkind]
      by_cases hrow : c.objectiveRow? = some r <;> simp only [hrow, if_true, if_false]
    rw [hsteps, constraintsOf, hrelation, List.append_nil]
    rfl
  | some relation =>
    have hkind : c.rowKind r = .constraint relation := by rw [rowKind, hrelation]
    have hown : (c.rowDraft r).rhs = c.rhsOf r.name := by
      rw [rowDraft, hkind]
      rfl
    rw [Draft.rowSteps, hown]
    cases hrange : c.ranges.lookup r.name with
    | none =>
      simp only [constraintsOf, rowDraft, hrelation, hrange, hkind]
      rw [Model.applyAll_singleton]
      exact h.apply_constrain mentioned cs _ _ _ (Finitary.isNaN_of_isFinite _ hrhs)
    | some range =>
      have hfinite := (h.ranges _ (mem_of_lookup hrange)).2
      obtain ⟨hlow, hhigh⟩ := isNaN_rangeSides r.letter hrhs hfinite
      simp only [constraintsOf, rowDraft, hrelation, hrange, hkind, rangeEnds_eq hrelation]
      refine Model.applyAll_cons_eq_ok_iff.mpr
        ⟨_, h.apply_constrain mentioned cs _ _ _ hlow, ?_⟩
      rw [Model.applyAll_singleton, h.apply_constrain mentioned _ _ _ _ hhigh,
        List.append_assoc]
      rfl

/-! ### The objective -/

omit [Number α] [Finitary α] in
/-- A row is that of the objective if its kind says so. -/
theorem rowKind_eq_objective_iff {r : NamedRow} :
    c.rowKind r = .objective ↔ r.letter = .free ∧ c.objectiveRow? = some r := by
  obtain ⟨letter, name⟩ := r
  cases letter <;> simp [rowKind, RowLetter.relation?]

omit [Number α] [Finitary α] in
theorem find?_rowKind :
    c.rows.find? (fun r => c.rowKind r == .objective) = c.objectiveRow? := by
  cases hrow : c.objectiveRow? with
  | none =>
    rw [List.find?_eq_none]
    intro r _ hkind
    have hthis := (rowKind_eq_objective_iff.mp (eq_of_beq hkind)).2
    rw [hrow] at hthis
    cases hthis
  | some r =>
    obtain ⟨hfree, before, after, heq, hbefore⟩ := List.find?_eq_some_iff_append.mp hrow
    refine List.find?_eq_some_iff_append.mpr ⟨?_, before, after, heq, fun a ha => ?_⟩
    · rw [rowKind_eq_objective_iff.mpr ⟨eq_of_beq hfree, hrow⟩]
      rfl
    · have hnot := hbefore a ha
      rw [Bool.not_eq_true', beq_eq_false_iff_ne] at hnot ⊢
      exact fun hkind => hnot (rowKind_eq_objective_iff.mp hkind).1

omit [Finitary α] in
theorem objectiveTerms_draft (whole : Bool) :
    (c.draft whole).objectiveTerms
      = (c.objectiveRow?.map fun r => c.termsOf r.name).getD [] := by
  have hfind : (c.draft whole).rows.find? (fun r => r.kind == .objective)
      = c.objectiveRow?.map c.rowDraft := by
    show (c.rows.map c.rowDraft).find? _ = _
    rw [List.find?_map, ← find?_rowKind]
    rfl
  rw [Draft.objectiveTerms, hfind]
  cases c.objectiveRow? <;> rfl

/-- The objective is set as it is described. -/
theorem IsProper.apply_optimize (h : c.IsProper)
    (mentioned : ∀ e ∈ c.entries, e.column ∈ c.columns) (cs : List (Constraint α))
    (whole : Bool) :
    ((c.columnModel id).withConstraints cs).apply
        (.optimize ((Draft.expression id (c.draft whole).objectiveTerms).withConstant c.constant)
          c.sense)
      = .ok (((c.columnModel id).withConstraints cs).withObjective (c.objective id)) := by
  rw [objectiveTerms_draft, objective]
  cases c.objectiveRow? with
  | none => exact Model.apply_optimize h.isFinite_constant (fun t ht => by cases ht)
  | some r => exact Model.apply_optimize h.isFinite_constant (h.takes mentioned r.name)

/-! ### The model -/

/-- **The draft of a proper content becomes the model that it describes.** -/
theorem toModel_draft (h : c.IsProper) (mentioned : ∀ e ∈ c.entries, e.column ∈ c.columns)
    (whole : Bool) : (c.draft whole).toModel id = .ok (c.model id) := by
  have hdeclarations : (c.columns.map c.columnDraft).map (fun d : ColumnDraft α =>
        BuildStep.declare d.name d.kind ⟨d.lower, d.upper⟩)
      = (c.columns.map c.variableOf).map Variable.declaration := by
    rw [List.map_map, List.map_map]
    rfl
  have hnames : ((c.columns.map c.variableOf).map (·.name)).Nodup := by
    rw [List.map_map]
    show (c.columns.map fun column => column).Nodup
    rw [List.map_id']
    exact nodup_eraseDups _
  have hsettled : ∀ v ∈ c.columns.map c.variableOf, v.IsSettled := by
    intro v hv
    obtain ⟨column, hcolumn, rfl⟩ := List.mem_map.mp hv
    exact h.isSettled hcolumn
  have hrows := Model.applyAll_flatMap (c.columnModel id) fun (r : NamedRow) (_ : r ∈ c.rows) cs =>
    h.applyAll_rowSteps mentioned r cs
  rw [Draft.toModel, Model.build, Draft.steps]
  show (Model.empty id c.name).applyAll
    ((c.columns.map c.columnDraft).map _ ++ (c.rows.map c.rowDraft).flatMap _ ++ [_]) = _
  rw [hdeclarations, List.flatMap_map, List.append_assoc, Model.applyAll_append,
    show (Model.empty id c.name).applyAll _ = _ from
      Model.build_declarations id c.name hnames hsettled]
  show (c.columnModel id).applyAll _ = _
  rw [Model.applyAll_append, hrows]
  show ((c.columnModel id).withConstraints _).applyAll [_] = _
  rw [Model.applyAll_singleton]
  exact h.apply_optimize mentioned _ whole

end Building

end Content

end Milp.Mps
