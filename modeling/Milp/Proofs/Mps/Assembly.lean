/-
Which texts are refused, and where the fault points.

A text is refused in one of two ways. The reader refuses a line, and then the fault names
the line. Or every line has been read and the model cannot be put together from what they
said: the bounds of a column contradict each other, a right-hand side and its range cancel
to what is no number, or the constant of the objective is not finite. By then the lines are
gone, and the fault is the model's own, without a line.

`Draft.objection?` finds this second fault from the draft alone. A draft that was read is
turned into a model exactly if there is none (`settles_toModel`): names and entries are in
order in every draft (`Milp.Proofs.Mps.Coherence`), so no check of the model fails but
those.
-/
import Milp.Proofs.Model.Accepted
import Milp.Proofs.Mps.Coherence
import Milp.Proofs.Mps.Positions

set_option autoImplicit false

namespace Milp

open Attempt (Settles settles_ok settles_foldlM)

variable {α : Type} [Number α]

/-! ## The checks of a model -/

namespace Model

variable {m : Model α}

/-- The objection to a right-hand side. -/
def rhsObjection? (name : String) (rhs : α) : Option (Fault α) :=
  if Number.isNaN rhs then
    some (.invalidCoefficient ("right-hand side of constraint '" ++ name ++ "'") rhs)
  else none

/-- With terms that pass, only the right-hand side of a constraint is in question. -/
theorem settles_constrain {e : Affine α} (takes : m.Takes e) (name : String)
    (relation : Relation) (rhs : α) :
    Settles (rhsObjection? name rhs)
      (fun grown => grown = m.withConstraint ⟨name, e.normalizedTerms, relation, rhs - e.constant⟩)
      (m.apply (.constrain (some name) e relation rhs)) := by
  rw [rhsObjection?]
  by_cases hnumber : Number.isNaN rhs = true
  · rw [if_pos hnumber]
    show m.apply _ = .error _
    rw [apply, addConstraint, Option.getD_some, addNamedConstraint, if_pos hnumber]
    rfl
  · rw [if_neg hnumber, apply_constrain (by simpa using hnumber) takes]
    exact settles_ok rfl

/-- With terms that pass, only the constant of an objective is in question. -/
theorem settles_optimize {e : Affine α} (takes : m.Takes e) (sense : Sense) :
    Settles (if Number.isFinite e.constant then none
        else some (.invalidCoefficient "objective constant" e.constant))
      (fun _ => True) (m.apply (.optimize e sense)) := by
  by_cases hfinite : Number.isFinite e.constant = true
  · rw [if_pos hfinite, apply_optimize hfinite takes]
    exact settles_ok trivial
  · rw [if_neg hfinite]
    show m.apply _ = .error _
    rw [apply, setObjective, checkedTerms_eq_ok takes]
    show (if Number.isFinite e.constant = true then _ else _) = _
    rw [if_neg hfinite]
    rfl

end Model

namespace Mps

open Model (IsWellFormed Takes rhsObjection?)
open Number (Finitary)

/-! ## Objections to a draft -/

/-- The objection to a column: its bounds leave no finite number. -/
def ColumnDraft.objection? (c : ColumnDraft α) : Option (Fault α) :=
  let bounds := c.kind.effectiveBounds ⟨c.lower, c.upper⟩
  if bounds.isValid then none else some (.invalidBounds c.name bounds.lower bounds.upper)

/-- The objection to a row: an end of its range is no number. -/
def RowDraft.objection? (r : RowDraft α) : Option (Fault α) :=
  match r.kind, r.range with
  | .constraint relation, some range =>
    let ends := Draft.rangeEnds relation r.rhs range
    (rhsObjection? (r.name ++ "_lo") ends.1).or (rhsObjection? (r.name ++ "_hi") ends.2)
  | _, _ => none

namespace Draft

/-- The first objection to a draft: to a column, to a row, or to the constant of the
objective. -/
def objection? (d : Draft α) : Option (Fault α) :=
  (d.columns.findSome? ColumnDraft.objection?).or
    ((d.rows.findSome? RowDraft.objection?).or
      (if Number.isFinite d.constant then none
        else some (.invalidCoefficient "objective constant" d.constant)))

/-- No objection names a line. -/
theorem ne_mps_of_objection? {d : Draft α} {fault : Fault α} (h : d.objection? = some fault) :
    ∀ line detail, fault ≠ .mps line detail := by
  have hrhs : ∀ {name : String} {rhs : α} {line : Nat} {detail : String},
      rhsObjection? name rhs ≠ some (.mps line detail) := by
    intro name rhs line detail hobjection
    rw [rhsObjection?] at hobjection
    split at hobjection <;> cases hobjection
  rintro line detail rfl
  rw [objection?, Option.or_eq_some_iff, Option.or_eq_some_iff] at h
  rcases h with hcolumn | ⟨-, hrow | ⟨-, hconstant⟩⟩
  · obtain ⟨c, -, hc⟩ := List.exists_of_findSome?_eq_some hcolumn
    rw [ColumnDraft.objection?] at hc
    split at hc <;> cases hc
  · obtain ⟨r, -, hr⟩ := List.exists_of_findSome?_eq_some hrow
    rw [RowDraft.objection?.eq_def] at hr
    split at hr
    · dsimp only at hr
      rw [Option.or_eq_some_iff] at hr
      rcases hr with hlow | ⟨-, hhigh⟩
      · exact hrhs hlow
      · exact hrhs hhigh
    · cases hr
  · split at hconstant <;> cases hconstant

/-! ## Columns -/

/-- A model on the way, with the columns that are still to be declared. -/
structure Declares (id : ModelId) (columns : Nat) (m : Model α) (left : List (ColumnDraft α)) :
    Prop where
  id : m.id = id
  wellFormed : m.IsWellFormed
  names : (m.vars.map (·.name) ++ left.map (·.name)).Nodup
  count : m.vars.length + left.length = columns

theorem settles_declare {id : ModelId} {columns : Nat} {m : Model α} {c : ColumnDraft α}
    {left : List (ColumnDraft α)} (h : Declares id columns m (c :: left)) :
    Settles c.objection? (fun grown => Declares id columns grown left)
      (m.apply (.declare c.name c.kind ⟨c.lower, c.upper⟩)) := by
  have hnew : c.name ∉ m.vars.map (·.name) := by
    intro hmem
    exact (List.nodup_append.mp h.names).2.2 _ hmem c.name List.mem_cons_self rfl
  have happly := Model.apply_declare (h.wellFormed.handleOf?_eq_none hnew) c.kind
    ⟨c.lower, c.upper⟩
  rw [happly, ColumnDraft.objection?]
  by_cases hvalid : (c.kind.effectiveBounds ⟨c.lower, c.upper⟩).isValid = true
  · rw [if_pos hvalid] at happly ⊢
    rw [if_pos hvalid]
    refine settles_ok ⟨h.id, h.wellFormed.apply happly, ?_, ?_⟩
    · rw [Model.withVariable, List.map_append, List.append_assoc]
      exact h.names
    · have hcount := h.count
      rw [List.length_cons] at hcount
      rw [Model.withVariable, List.length_append, List.length_singleton]
      omega
  · rw [if_neg hvalid, if_neg hvalid]
    rfl

/-- **The columns are declared** one after the other, up to the first objection. -/
theorem settles_columns {d : Draft α} (names : (d.columns.map (·.name)).Nodup) (id : ModelId) :
    Settles (d.columns.findSome? ColumnDraft.objection?)
      (fun m => m.id = id ∧ m.vars.length = d.columns.length)
      ((Model.empty id d.name).applyAll
        (d.columns.map fun c => .declare c.name c.kind ⟨c.lower, c.upper⟩)) := by
  have hstart : Declares id d.columns.length (Model.empty id d.name) d.columns :=
    ⟨rfl, Model.isWellFormed_empty id d.name, names, Nat.zero_add _⟩
  rw [Model.applyAll, List.foldlM_map]
  have hall := settles_foldlM (fun _ _ _ => settles_declare) hstart
  exact hall.imp fun m hm => ⟨hm.id, hm.count⟩

/-! ## Rows -/

theorem takes_expression {id : ModelId} {m : Model α} {terms : List (Nat × α)} (hid : m.id = id)
    (fits : ∀ t ∈ terms, t.1 < m.vars.length ∧ Number.isFinite t.2 = true) :
    m.Takes (expression id terms) := by
  intro t ht
  obtain ⟨entry, hentry, rfl⟩ := List.mem_map.mp ht
  obtain ⟨hlt, hfinite⟩ := fits entry hentry
  refine ⟨?_, hfinite⟩
  rw [Model.owns, hid, beq_self_eq_true, Bool.true_and]
  exact decide_eq_true hlt

/-- A model of an identity and a number of variables. -/
def IsOf (id : ModelId) (columns : Nat) (m : Model α) : Prop :=
  m.id = id ∧ m.vars.length = columns

theorem settles_constrain {id : ModelId} {columns : Nat} {m : Model α} (h : IsOf id columns m)
    {r : RowDraft α} (fits : RowFits columns r) (name : String) (relation : Relation) (rhs : α) :
    Settles (rhsObjection? name rhs) (IsOf id columns)
      (m.apply (.constrain (some name) (expression id r.terms) relation rhs)) := by
  obtain ⟨hid, hlength⟩ := h
  have htakes : m.Takes (expression id r.terms) := by
    refine takes_expression hid ?_
    rw [hlength]
    exact fits.entries
  refine (Model.settles_constrain htakes name relation rhs).imp fun grown hgrown => ?_
  rw [hgrown]
  exact ⟨hid, hlength⟩

/-- The steps of a row fail with the objection to it. -/
theorem settles_row {id : ModelId} {columns : Nat} {m : Model α} (h : IsOf id columns m)
    {r : RowDraft α} (fits : RowFits columns r) :
    Settles r.objection? (IsOf id columns) (m.applyAll (rowSteps id r)) := by
  rw [rowSteps, RowDraft.objection?.eq_def]
  cases r.kind with
  | objective => exact settles_ok h
  | free => exact settles_ok h
  | constraint relation =>
    cases r.range with
    | none =>
      have hnumber : rhsObjection? r.name r.rhs = none := by simp [rhsObjection?, fits.rhs]
      have hconstrain := settles_constrain h fits r.name relation r.rhs
      rw [hnumber] at hconstrain
      dsimp only
      rwa [Model.applyAll_singleton]
    | some range =>
      dsimp only
      rw [Model.applyAll, List.foldlM_cons]
      refine (settles_constrain h fits _ .atLeast _).bind fun next hnext => ?_
      show Settles _ _ (next.applyAll [_])
      rw [Model.applyAll_singleton]
      exact settles_constrain hnext fits _ .atMost _

/-- Constraints are added row by row. -/
theorem applyAll_rowSteps (id : ModelId) (rows : List (RowDraft α)) (m : Model α) :
    m.applyAll (rows.flatMap (rowSteps id))
      = rows.foldlM (fun m r => m.applyAll (rowSteps id r)) m := by
  induction rows generalizing m with
  | nil => rfl
  | cons r rows ih =>
    rw [List.flatMap_cons, Model.applyAll_append, List.foldlM_cons]
    exact congrArg (m.applyAll (rowSteps id r) >>= ·) (funext ih)

/-- A model on the way, with the rows that are still to be added. -/
structure Constrains (id : ModelId) (columns : Nat) (m : Model α) (left : List (RowDraft α)) :
    Prop where
  isOf : IsOf id columns m
  fits : ∀ r ∈ left, RowFits columns r

/-- **The constraints are added** row by row, up to the first objection. -/
theorem settles_rows {id : ModelId} {columns : Nat} {m : Model α} {rows : List (RowDraft α)}
    (h : Constrains id columns m rows) :
    Settles (rows.findSome? RowDraft.objection?) (IsOf id columns)
      (m.applyAll (rows.flatMap (rowSteps id))) := by
  have hstep : ∀ (m : Model α) (r : RowDraft α) (left : List (RowDraft α)),
      Constrains id columns m (r :: left) →
        Settles r.objection? (fun next => Constrains id columns next left)
          (m.applyAll (rowSteps id r)) := by
    intro m r left hm
    obtain ⟨hr, hleft⟩ := List.forall_mem_cons.mp hm.fits
    exact (settles_row hm.isOf hr).imp fun next hnext => ⟨hnext, hleft⟩
  rw [applyAll_rowSteps]
  exact (settles_foldlM hstep h).imp fun m hm => hm.isOf

/-! ## The model -/

omit [Number α] in
/-- The entries of the objective are those of a row, or there are none. -/
theorem mem_objectiveTerms {d : Draft α} {t : Nat × α} (ht : t ∈ d.objectiveTerms) :
    ∃ r ∈ d.rows, t ∈ r.terms := by
  rw [objectiveTerms] at ht
  split at ht
  · rename_i r hr
    exact ⟨r, List.mem_of_find?_eq_some hr, ht⟩
  · cases ht

/-- **A draft in order is turned into a model**, unless there is an objection to it. -/
theorem settles_toModel {d : Draft α} (h : d.Coherent) (id : ModelId) :
    Settles d.objection? (fun _ => True) (d.toModel id) := by
  rw [toModel, Model.build, steps, List.append_assoc, Model.applyAll_append, objection?]
  refine (settles_columns h.names id).bind fun declared hdeclared => ?_
  rw [Model.applyAll_append]
  refine (settles_rows ⟨hdeclared, h.rows⟩).bind fun m hm => ?_
  rw [Model.applyAll_singleton]
  have htakes : m.Takes ((expression id d.objectiveTerms).withConstant d.constant) := by
    refine takes_expression hm.1 fun t ht => ?_
    obtain ⟨r, hr, hmem⟩ := mem_objectiveTerms ht
    rw [hm.2]
    exact (h.rows r hr).entries t hmem
  exact Model.settles_optimize htakes d.sense

end Draft

/-! ## Texts -/

/-- A line that says something has a number of a line of the text. -/
theorem mem_numberedLines {text : String} {l : Nat × Line} (h : l ∈ numberedLines text) :
    1 ≤ l.1 ∧ l.1 ≤ (Text.lines text).length := by
  obtain ⟨⟨cs, index⟩, hmem, hline⟩ := List.mem_filterMap.mp h
  obtain ⟨line, -, rfl⟩ := Option.map_eq_some_iff.mp hline
  have hlt := (List.mem_zipIdx hmem).2.1
  dsimp only
  omega

/-- A text whose reading fails is refused at one of its lines. -/
theorem line_of_ofText {text : String} {fault : Fault α}
    (h : (Draft.ofText text : Except (Fault α) (Draft α)) = .error fault) :
    ∃ line detail, fault = .mps line detail ∧ 1 ≤ line ∧ line ≤ (Text.lines text).length := by
  obtain ⟨l, hl, detail, rfl⟩ := Draft.line_of_readLines _ h
  exact ⟨l.1, detail, rfl, mem_numberedLines hl⟩

/-- **Which texts are refused, and with what.** Either the reader refuses a line, and the
fault names it, or all lines were read and there is an objection to the draft, which names
none. -/
theorem read_eq_error_iff [Finitary α] (id : ModelId) (text : String) (fault : Fault α) :
    Mps.read id text = .error fault
      ↔ (Draft.ofText text = .error fault
          ∧ ∃ line detail, fault = .mps line detail ∧ 1 ≤ line ∧ line ≤ (Text.lines text).length)
        ∨ ∃ d : Draft α, Draft.ofText text = .ok d ∧ d.objection? = some fault
          ∧ ∀ line detail, fault ≠ .mps line detail := by
  rw [Mps.read]
  cases hread : (Draft.ofText text : Except (Fault α) (Draft α)) with
  | error e =>
    constructor
    · intro h
      obtain rfl : e = fault := Except.error.inj h
      exact .inl ⟨rfl, line_of_ofText hread⟩
    · rintro (⟨h, -⟩ | ⟨d, hd, -⟩)
      · rw [Except.error.inj h]
        rfl
      · cases hd
  | ok d =>
    have hsettled := (Draft.settles_toModel (Draft.coherent_of_ofText hread) id).eq_error_iff
      (e := fault)
    constructor
    · intro h
      have hobjection := hsettled.mp h
      exact .inr ⟨d, rfl, hobjection, Draft.ne_mps_of_objection? hobjection⟩
    · rintro (⟨h, -⟩ | ⟨d', hd, hobjection, -⟩)
      · cases h
      · obtain rfl := Except.ok.inj hd
        exact hsettled.mpr hobjection

/-! ## A text without a line to blame -/

/-- The bounds of the column contradict each other, though each line is right. -/
def crossed : String :=
  "NAME T\nROWS\n N obj\nCOLUMNS\n x obj 1\nBOUNDS\n LO b x 5\n UP b x 1\nENDATA\n"

theorem read_crossed : (Mps.read ⟨1⟩ crossed : Except (Fault ExtRat) (Model ExtRat))
    = .error (.invalidBounds "x" (.fin 5) (.fin 1)) := by
  with_unfolding_all rfl

theorem read_unknownRow : (Mps.read ⟨1⟩ "ROWS\n X obj\n" : Except (Fault ExtRat) (Model ExtRat))
    = .error (.mps 2 "unknown row type 'X'") := by
  with_unfolding_all rfl

/-- One text is refused at its second line, the other at none. -/
theorem read_eq_error_iff_crossed :
    (Draft.ofText "ROWS\n X obj\n" : Except (Fault ExtRat) (Draft ExtRat))
        = .error (.mps 2 "unknown row type 'X'")
      ∧ ∃ d : Draft ExtRat, Draft.ofText crossed = .ok d
        ∧ d.objection? = some (.invalidBounds "x" (.fin 5) (.fin 1)) := by
  refine ⟨?_, ?_⟩
  · rcases (read_eq_error_iff ⟨1⟩ _ _).mp read_unknownRow with ⟨hread, -⟩ | ⟨d, -, -, hnot⟩
    · exact hread
    · exact absurd rfl (hnot 2 _)
  · rcases (read_eq_error_iff ⟨1⟩ crossed _).mp read_crossed with ⟨-, line, detail, hmps, -⟩ | h
    · cases hmps
    · obtain ⟨d, hread, hobjection, -⟩ := h
      exact ⟨d, hread, hobjection⟩

/-- Not every fault of a text names a line. -/
theorem read_without_line :
    ¬ ∀ (text : String) (fault : Fault ExtRat), Mps.read ⟨1⟩ text = .error fault →
      ∃ line detail, fault = .mps line detail ∧ 1 ≤ line ∧ line ≤ (Text.lines text).length := by
  intro h
  obtain ⟨line, detail, hmps, -⟩ := h crossed _ read_crossed
  cases hmps

end Mps

end Milp
