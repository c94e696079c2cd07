/-
What every draft of the reader has in order.

The reader refuses a line rather than write down what cannot be right. A column has a name
of its own, an entry is of a column that is there and finite, and a right-hand side is a
number (`Coherent`). Each line keeps this, section by section, so it holds of whatever has
been read of any text (`coherent_of_ofText`). What it leaves open are the numbers that only
belong together when the text has ended: the two bounds of a column, a right-hand side and
its range, and the constant of the objective.
-/
import Milp.Mps.Reader
import Milp.Proofs.Attempt
import Milp.Proofs.Number.Finite

set_option autoImplicit false

namespace Milp.Mps

open Attempt (Yields yields_ok yields_error yields_foldlM)
open Number (Finitary)

variable {α : Type} [Number α]

/-- What is true of one item of a list still is after a change that keeps it. -/
theorem forall_mem_modify {β : Type} {P : β → Prop} {items : List β} {change : β → β}
    (h : ∀ b ∈ items, P b) (keeps : ∀ b, P b → P (change b)) (i : Nat) :
    ∀ b ∈ items.modify i change, P b := by
  intro b hb
  obtain ⟨j, hj, rfl⟩ := List.getElem_of_mem hb
  rw [List.length_modify] at hj
  rw [List.getElem_modify]
  split
  · exact keeps _ (h _ (List.getElem_mem hj))
  · exact h _ (List.getElem_mem hj)

/-! ## Fields -/

/-- What is read as a number is one. -/
theorem yields_readNumber (line : Nat) (field : String) :
    Yields (fun value : α => Number.isNaN value = false) (readNumber line field) := by
  rw [readNumber]
  cases Numeral.ofText field with
  | error e => exact yields_error _
  | ok numeral =>
    dsimp only
    refine .ite (fun _ => yields_error _) fun hnumber => ?_
    exact yields_ok (by simpa using hnumber)

namespace Draft

omit [Number α] in
/-- Reading a field that is not used for the result tells nothing of it. -/
theorem yields_true {β : Type} (x : Except (Fault α) β) : Yields (fun _ => True) x :=
  fun _ _ => trivial

omit [Number α] in
theorem lt_of_columnIndex? {d : Draft α} {name : String} {column : Nat}
    (h : d.columnIndex? name = some column) : column < d.columns.length :=
  (List.findIdx?_eq_some_iff_getElem.mp h).1

omit [Number α] in
theorem readRow_eq_ok_iff {d : Draft α} {line : Nat} {name : String} {row : Nat} :
    d.readRow line name = .ok row ↔ d.rowIndex? name = some row := by
  rw [readRow]
  cases d.rowIndex? name <;> simp [refuse]

omit [Number α] in
theorem readColumn_eq_ok_iff {d : Draft α} {line : Nat} {name : String} {column : Nat} :
    d.readColumn line name = .ok column ↔ d.columnIndex? name = some column := by
  rw [readColumn]
  cases d.columnIndex? name <;> simp [refuse]

/-! ## The invariant -/

/-- A row whose entries are finite and of some columns, with a number to its right. -/
structure RowFits (columns : Nat) (r : RowDraft α) : Prop where
  entries : ∀ t ∈ r.terms, t.1 < columns ∧ Number.isFinite t.2 = true
  rhs : Number.isNaN r.rhs = false

/-- **What every line keeps in order**: columns have names of their own, and rows fit
them. -/
structure Coherent (d : Draft α) : Prop where
  names : (d.columns.map (·.name)).Nodup
  rows : ∀ r ∈ d.rows, RowFits d.columns.length r

theorem coherent_initial : (initial : Draft α).Coherent where
  names := List.nodup_nil
  rows r hr := by cases hr

section Changes

variable {d : Draft α}

/-- A change to the other fields. -/
theorem Coherent.of_eq {d' : Draft α} (h : d.Coherent) (rows : d'.rows = d.rows)
    (columns : d'.columns = d.columns) : d'.Coherent where
  names := by
    rw [columns]
    exact h.names
  rows := by
    rw [rows, columns]
    exact h.rows

theorem Coherent.modifyRow (h : d.Coherent) {change : RowDraft α → RowDraft α}
    (keeps : ∀ r, RowFits d.columns.length r → RowFits d.columns.length (change r)) (row : Nat) :
    (d.modifyRow row change).Coherent where
  names := h.names
  rows := forall_mem_modify h.rows keeps row

theorem Coherent.modifyColumn (h : d.Coherent) {change : ColumnDraft α → ColumnDraft α}
    (keeps : ∀ c, (change c).name = c.name) (column : Nat) :
    (d.modifyColumn column change).Coherent where
  names := by
    have hsame : (d.columns.modify column change).map (·.name) = d.columns.map (·.name) := by
      refine List.ext_getElem (by simp) fun i hi _ => ?_
      rw [List.getElem_map, List.getElem_map, List.getElem_modify]
      split
      · exact keeps _
      · rfl
    show ((d.columns.modify column change).map (·.name)).Nodup
    rw [hsame]
    exact h.names
  rows := by
    show ∀ r ∈ d.rows, RowFits (d.columns.modify column change).length r
    rw [List.length_modify]
    exact h.rows

theorem Coherent.addRow [Finitary α] (h : d.Coherent) (name : String) (kind : RowKind) :
    (d.addRow name kind).Coherent where
  names := h.names
  rows := by
    intro r hr
    rcases List.mem_append.mp hr with hr | hr
    · exact h.rows r hr
    · rw [List.mem_singleton.mp hr]
      refine ⟨fun t ht => ?_, Finitary.isNaN_of_isFinite 0 Finitary.isFinite_zero⟩
      cases ht

/-- A column that is mentioned is there from then on, once. -/
theorem Coherent.ensureColumn (h : d.Coherent) (name : String) :
    (d.ensureColumn name).2.Coherent
      ∧ (d.ensureColumn name).1 < (d.ensureColumn name).2.columns.length := by
  rw [Draft.ensureColumn]
  cases hfound : d.columnIndex? name with
  | some column => exact ⟨h, lt_of_columnIndex? hfound⟩
  | none =>
    have hnew : name ∉ d.columns.map (·.name) := by
      intro hmem
      obtain ⟨c, hc, hname⟩ := List.mem_map.mp hmem
      have hnone := List.findIdx?_eq_none_iff.mp hfound c hc
      rw [beq_eq_false_iff_ne] at hnone
      exact hnone hname
    refine ⟨⟨?_, fun r hr => ⟨fun t ht => ?_, (h.rows r hr).rhs⟩⟩, ?_⟩
    · rw [List.map_append, List.map_singleton, ← List.concat_eq_append]
      exact List.Nodup.concat hnew h.names
    · obtain ⟨hthere, hfinite⟩ := (h.rows r hr).entries t ht
      rw [List.length_append]
      exact ⟨Nat.lt_add_right _ hthere, hfinite⟩
    · rw [List.length_append]
      exact Nat.lt_add_of_pos_right Nat.one_pos

theorem Coherent.addEntry (h : d.Coherent) {column : Nat} {value : α}
    (there : column < d.columns.length) (finite : Number.isFinite value = true) (row : Nat) :
    (d.addEntry row column value).Coherent := by
  rw [Draft.addEntry]
  refine h.modifyRow ?_ row
  intro r hr
  refine ⟨fun t ht => ?_, hr.rhs⟩
  rcases List.mem_append.mp ht with ht | ht
  · exact hr.entries t ht
  · rw [List.mem_singleton.mp ht]
    exact ⟨there, finite⟩

theorem Coherent.setRhs (h : d.Coherent) {value : α} (number : Number.isNaN value = false)
    (row : Nat) : (d.setRhs row value).Coherent := by
  rw [Draft.setRhs]
  split
  · exact h.of_eq rfl rfl
  · refine h.modifyRow ?_ row
    exact fun r hr => ⟨hr.entries, number⟩

theorem Coherent.setRange (h : d.Coherent) (row : Nat) (value : α) :
    (d.setRange row value).Coherent := by
  rw [Draft.setRange]
  refine h.modifyRow ?_ row
  exact fun r hr => ⟨hr.entries, hr.rhs⟩

end Changes

/-! ## Lines -/

section Lines

variable {d : Draft α} (h : d.Coherent)
include h

theorem Coherent.header (line : Nat) (fields : List String) :
    Yields (fun read : Section × Draft α => read.2.Coherent) (d.header line fields) := by
  unfold Draft.header
  split
  case h_1 => exact yields_ok (h.of_eq rfl rfl)
  case h_3 => exact (yields_true _).map fun _ _ => h.of_eq rfl rfl
  case h_10 => exact yields_error _
  all_goals exact yields_ok h

theorem Coherent.rowLine [Finitary α] (line : Nat) (fields : List String) :
    Yields Coherent (d.rowLine line fields) := by
  unfold Draft.rowLine
  split
  · refine (yields_true _).bind fun kind _ => ?_
    exact .ite (fun _ => yields_error _) fun _ => yields_ok (h.addRow _ kind)
  · exact yields_error _

theorem Coherent.entry {column : Nat} (there : column < d.columns.length) (line : Nat)
    (pair : String × String) :
    Yields (fun d' : Draft α => d'.Coherent ∧ column < d'.columns.length)
      (d.entry column line pair) := by
  rw [Draft.entry]
  refine (yields_true _).bind fun row _ => (yields_true _).bind fun value _ => ?_
  exact .ite (fun hfinite => yields_ok ⟨h.addEntry there hfinite row, there⟩)
    fun _ => yields_error _

theorem Coherent.entryLine (line : Nat) (fields : List String) :
    Yields Coherent (d.entryLine line fields) := by
  have hcoherent : ∀ {column : Nat} {x : Except (Fault α) (Draft α)},
      Yields (fun d' : Draft α => d'.Coherent ∧ column < d'.columns.length) x →
        Yields Coherent x := fun hx d' hd' => (hx d' hd').1
  unfold Draft.entryLine
  split
  · rename_i name row value
    obtain ⟨hensured, hthere⟩ := h.ensureColumn name
    exact hcoherent (hensured.entry hthere line _)
  · rename_i name row value row' value'
    obtain ⟨hensured, hthere⟩ := h.ensureColumn name
    refine (hensured.entry hthere line _).bind fun d' hd' => ?_
    exact hcoherent (hd'.1.entry hd'.2 line _)
  · exact yields_error _

theorem Coherent.columnLine (line : Nat) (fields : List String) :
    Yields Coherent (d.columnLine line fields) := by
  unfold Draft.columnLine
  split
  · refine .ite (fun _ => ?_) fun _ => h.entryLine line _
    rw [markerLine]
    refine .ite (fun _ => yields_ok (h.of_eq rfl rfl)) fun _ => ?_
    exact .ite (fun _ => yields_ok (h.of_eq rfl rfl)) fun _ => yields_error _
  · exact h.entryLine line _

theorem Coherent.rhsLine (line : Nat) (fields : List String) :
    Yields Coherent (d.rhsLine line fields) := by
  rw [Draft.rhsLine]
  refine (yields_true _).bind fun entries _ => ?_
  refine yields_foldlM (fun d pair hd => ?_) entries h
  rw [rhsPair]
  refine (yields_true _).bind fun row _ =>
    (yields_readNumber line pair.2).bind fun value hvalue => ?_
  exact yields_ok (hd.setRhs hvalue row)

theorem Coherent.rangeLine (line : Nat) (fields : List String) :
    Yields Coherent (d.rangeLine line fields) := by
  rw [Draft.rangeLine]
  refine (yields_true _).bind fun entries _ => ?_
  refine yields_foldlM (fun d pair hd => ?_) entries h
  rw [rangePair]
  refine (yields_true _).bind fun row _ => (yields_true _).bind fun value _ => ?_
  split
  · exact yields_ok (hd.setRange row value)
  · exact yields_error _

omit h in
/-- No bound line changes the name of a column. -/
theorem name_of_boundChange? {kind : String} {value : α} {change : ColumnDraft α → ColumnDraft α}
    (hchange : boundChange? kind value = some change) (c : ColumnDraft α) :
    (change c).name = c.name := by
  rw [boundChange?] at hchange
  repeat' split at hchange
  all_goals cases hchange
  all_goals rfl

theorem Coherent.boundLine (line : Nat) (fields : List String) :
    Yields Coherent (d.boundLine line fields) := by
  unfold Draft.boundLine
  split
  · exact yields_ok h
  · refine (yields_true _).bind fun target _ => (yields_true _).bind fun column _ => ?_
    split
    · rename_i change hchange
      exact yields_ok (h.modifyColumn (name_of_boundChange? hchange) column)
    · exact yields_error _

theorem Coherent.dataLine [Finitary α] (part : Section) (line : Nat) (fields : List String) :
    Yields Coherent (d.dataLine part line fields) := by
  cases part with
  | start => exact yields_error _
  | objectiveSense => exact (yields_true _).map fun _ _ => h.of_eq rfl rfl
  | rows => exact h.rowLine line fields
  | columns => exact h.columnLine line fields
  | rhs => exact h.rhsLine line fields
  | ranges => exact h.rangeLine line fields
  | bounds => exact h.boundLine line fields
  | ended => exact yields_ok h

end Lines

/-! ## Texts -/

theorem Coherent.readLines [Finitary α] {d : Draft α} (h : d.Coherent) (part : Section)
    (lines : List (Nat × Line)) : Yields Coherent (d.readLines part lines) := by
  induction lines generalizing d part with
  | nil => exact yields_ok h
  | cons l lines ih =>
    obtain ⟨line, l⟩ := l
    cases l with
    | header fields =>
      rw [Draft.readLines]
      refine (h.header line fields).bind fun read hread => ?_
      exact .ite (fun _ => yields_ok hread) fun _ => ih hread read.1
    | data fields =>
      rw [Draft.readLines]
      exact (h.dataLine part line fields).bind fun next hnext => ih hnext part

/-- **A text that is read** leaves a draft that is in order. -/
theorem coherent_of_ofText [Finitary α] {text : String} {d : Draft α}
    (h : ofText text = .ok d) : d.Coherent :=
  coherent_initial.readLines .start (numberedLines text) d h

end Draft

end Milp.Mps
