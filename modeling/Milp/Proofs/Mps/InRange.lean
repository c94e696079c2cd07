/-
No text makes the reader reach out of range.

Reading by positions (`Milp.Proofs.Mps.Indexed`) comes to an outcome on every text, the one
that the reader comes to. Up to the end of the data this is the invariant of the tables,
kept by every line (`Milp.Proofs.Mps.Accesses`). Then the columns are declared, and each is
given the reference of its position; so the entries, which are of columns that exist, find a
reference (`expression?_eq`), and the objective row is there if there is one.

The same invariant excludes two faults. No name of a column is taken, since the names are
distinct, and no reference is unknown to the model that gave it out (`faults_of_toModel`).
-/
import Milp.Proofs.Mps.Accesses
import Milp.Proofs.Model.References
import Milp.Proofs.Mps.Assembly
import Milp.Proofs.Mps.Spacing

set_option autoImplicit false

namespace Milp

/-- Whether a fault is of a name that is taken, or of a variable that is not there. -/
def Fault.isOfReference {α : Type} : Fault α → Bool
  | .duplicateVariable _ | .unboundVariable _ => true
  | _ => false

open Attempt (FailsOnly failsOnly_ok failsOnly_error)

variable {α : Type} [Number α]

omit [Number α] in
theorem Fault.IsOfNumber.isOfReference {fault : Fault α} (h : fault.IsOfNumber) :
    fault.isOfReference = false := by
  obtain ⟨context, value, rfl⟩ := h
  rfl

/-! ## Models -/

namespace Model

variable {m : Model α}

/-- What is given out is the reference to the next position. -/
theorem of_declare_handle {name : String} {kind : VariableKind} {bounds : Interval α}
    {declared : Handle × Model α} (h : m.declare name kind bounds = .ok declared) :
    declared.1 = ⟨m.id, m.vars.length⟩ ∧ declared.2.id = m.id
      ∧ declared.2.vars.length = m.vars.length + 1 := by
  rcases m.declare_cases name kind bounds with ⟨fault, hfault⟩ | hok
  · rw [hfault] at h
    cases h
  · rw [hok] at h
    obtain rfl := Except.ok.inj h
    exact ⟨rfl, rfl, List.length_append⟩

end Model

namespace Mps

open Draft (expression rowSteps IsOf)

namespace Indexed

omit [Number α] in
/-- Where the rest has an outcome, the whole has that of both. -/
theorem andThen_eq {β γ : Type} {x : Except (Fault α) β}
    {next : β → Option (Except (Fault α) γ)} {f : β → Except (Fault α) γ}
    (h : ∀ b, x = .ok b → next b = some (f b)) : andThen x next = some (x >>= f) := by
  cases x with
  | error fault => rfl
  | ok b => exact h b rfl

omit [Number α] in
theorem andThen_map {β γ δ : Type} (x : Except (Fault α) β) (f : β → γ)
    (next : γ → Option (Except (Fault α) δ)) :
    andThen (x.map f) next = andThen x fun b => next (f b) := by
  cases x <;> rfl

/-! ## References -/

/-- The references to so many columns, from a position on. -/
def references (id : ModelId) (start count : Nat) : List Handle :=
  (List.range' start count).map fun column => ⟨id, column⟩

/-- **Columns are given the references of their positions.** -/
theorem declareAll_eq (m : Model α) (columns : List (ColumnDraft α)) :
    declareAll m columns
      = (m.applyAll (columns.map fun c => .declare c.name c.kind ⟨c.lower, c.upper⟩)).map
          fun grown => (references m.id m.vars.length columns.length, grown) := by
  induction columns generalizing m with
  | nil => rfl
  | cons c columns ih =>
    rw [declareAll, List.map_cons, Model.applyAll, List.foldlM_cons, Model.apply]
    cases hdeclare : m.declare c.name c.kind ⟨c.lower, c.upper⟩ with
    | error fault => rfl
    | ok declared =>
      obtain ⟨h, next⟩ := declared
      obtain ⟨hhandle, hid, hlength⟩ := Model.of_declare_handle hdeclare
      dsimp only at hhandle hid hlength
      show (declareAll next columns >>= fun rest => pure (h :: rest.1, rest.2)) = Except.map _
        (next.applyAll (columns.map fun c => .declare c.name c.kind ⟨c.lower, c.upper⟩))
      rw [ih, hid, hlength, hhandle]
      cases next.applyAll (columns.map fun c => .declare c.name c.kind ⟨c.lower, c.upper⟩) <;> rfl

/-- **Entries of columns that exist find a reference.** -/
theorem expression?_eq {id : ModelId} {count : Nat} {terms : List (Nat × α)}
    (there : ∀ t ∈ terms, t.1 < count) :
    expression? (references id 0 count) terms = some (expression id terms) := by
  have hfind : ∀ t ∈ terms, ((references id 0 count)[t.1]?).map (fun h => (h, t.2))
      = some ((⟨id, t.1⟩ : Handle), t.2) := by
    intro t ht
    rw [references, List.getElem?_map, List.getElem?_range' (there t ht)]
    simp
  have hall : (terms.mapM fun t : Nat × α =>
      ((references id 0 count)[t.1]?).map fun h => (h, t.2))
      = some (terms.map fun t => ((⟨id, t.1⟩ : Handle), t.2)) := by
    clear there
    induction terms with
    | nil => rfl
    | cons t terms ih =>
      obtain ⟨ht, hterms⟩ := List.forall_mem_cons.mp hfind
      rw [List.mapM_cons, ht, ih hterms]
      rfl
  rw [expression?, hall]
  rfl

theorem addRowTo_eq {id : ModelId} {count : Nat} {r : RowDraft α}
    (there : ∀ t ∈ r.terms, t.1 < count) (m : Model α) :
    addRowTo (references id 0 count) m r = some (m.applyAll (rowSteps id r)) := by
  rw [addRowTo.eq_def, rowSteps]
  cases r.kind with
  | objective => rfl
  | free => rfl
  | constraint relation =>
    dsimp only
    rw [expression?_eq there]
    cases r.range with
    | none =>
      dsimp only
      rw [Model.applyAll_singleton]
      rfl
    | some range =>
      dsimp only
      rw [Model.applyAll, List.foldlM_cons]
      refine andThen_eq fun next _ => ?_
      show _ = some (next.applyAll [_])
      rw [Model.applyAll_singleton]
      rfl

theorem addRows_eq {id : ModelId} {count : Nat} {rows : List (RowDraft α)}
    (there : ∀ r ∈ rows, ∀ t ∈ r.terms, t.1 < count) (m : Model α) :
    addRows (references id 0 count) m rows = some (m.applyAll (rows.flatMap (rowSteps id))) := by
  induction rows generalizing m with
  | nil => rfl
  | cons r rows ih =>
    obtain ⟨hr, hrows⟩ := List.forall_mem_cons.mp there
    rw [addRows, addRowTo_eq hr, List.flatMap_cons, Model.applyAll_append]
    exact andThen_eq fun next _ => ih hrows next

variable {s : Indexed α}

/-- The objective row is there, and its entries are those of the objective. -/
theorem objective?_eq (h : s.InOrder) (id : ModelId) :
    s.objective? (references id 0 s.columns.length)
      = some (expression id s.toDraft.objectiveTerms) := by
  rw [objective?, Draft.objectiveTerms]
  cases hrow : s.objectiveRow with
  | none =>
    have hnone : s.rows.find? (fun r => r.kind == .objective) = none := by
      rw [List.find?_eq_none]
      intro r hr hkind
      obtain ⟨i, hi⟩ := List.getElem?_of_mem hr
      have hobjective := (h.objective i r hi).mp (beq_iff_eq.mp hkind)
      rw [hrow] at hobjective
      cases hobjective
    rw [hnone]
    rfl
  | some row =>
    have hfirst := h.objectiveRow
    rw [hrow] at hfirst
    obtain ⟨hlt, -⟩ := List.findIdx?_eq_some_iff_getElem.mp hfirst.symm
    have hget := List.getElem?_eq_getElem hlt
    have hfound : s.rows.find? (fun r => r.kind == .objective) = some s.rows[row] := by
      rw [List.find?_eq_some_iff_getElem]
      refine ⟨beq_iff_eq.mpr ((h.objective row _ hget).mpr hrow), row, hlt, rfl, fun j hj => ?_⟩
      -- no other row is the objective
      rw [Bool.not_eq_true', beq_eq_false_iff_ne]
      intro hkind
      have hother := (h.objective j _ (List.getElem?_eq_getElem (hj.trans hlt))).mp hkind
      rw [hrow, Option.some.injEq] at hother
      omega
    dsimp only
    rw [hfound, hget]
    exact expression?_eq (h.terms _ (List.getElem_mem hlt))

/-- **The model is assembled in range.** -/
theorem assemble_eq (h : s.InOrder) (id : ModelId) :
    s.assemble id = some (s.toDraft.toModel id) := by
  rw [assemble, declareAll_eq, andThen_map, Draft.toModel, Model.build, Draft.steps,
    List.append_assoc, Model.applyAll_append]
  refine andThen_eq fun grown _ => ?_
  show (addRows (references id 0 s.columns.length) grown s.rows >>= _) = _
  rw [addRows_eq h.terms, Model.applyAll_append]
  refine andThen_eq fun m _ => ?_
  show (s.objective? (references id 0 s.columns.length) >>= _) = _
  rw [objective?_eq h, Model.applyAll_singleton]
  rfl

end Indexed

/-! ## Faults -/

namespace Draft

/-- The entries of columns that exist are of variables of the model. -/
theorem owns_expression {id : ModelId} {columns : Nat} {m : Model α} (h : IsOf id columns m)
    {terms : List (Nat × α)} (there : ∀ t ∈ terms, t.1 < columns) :
    ∀ t ∈ (expression id terms).terms, m.owns t.1 = true := by
  refine List.forall_mem_map.mpr fun t ht => ?_
  have hlt := there t ht
  rw [Model.owns, h.1, h.2, beq_self_eq_true, Bool.true_and]
  exact decide_eq_true hlt

theorem mem_rowSteps {id : ModelId} {r : RowDraft α} {step : BuildStep α}
    (h : step ∈ rowSteps id r) :
    ∃ name relation rhs, step = .constrain name (expression id r.terms) relation rhs := by
  rw [rowSteps] at h
  split at h
  · cases h
  · cases h
  · split at h
    · exact ⟨_, _, _, List.mem_singleton.mp h⟩
    · rcases List.mem_cons.mp h with rfl | h
      · exact ⟨_, _, _, rfl⟩
      · exact ⟨_, _, _, List.mem_singleton.mp h⟩

/-- **No fault of a draft in order is of a reference.** -/
theorem faults_of_toModel {s : Indexed α} (h : s.InOrder) (id : ModelId) :
    FailsOnly (fun fault => fault.isOfReference = false) (s.toDraft.toModel id) := by
  have hcolumns := settles_columns h.columnTable.distinct id
  rw [toModel, Model.build, steps, List.append_assoc, Model.applyAll_append]
  refine FailsOnly.bind ?_ fun declared hdeclared => ?_
  · -- with distinct names, only bounds are refused
    intro fault hfault
    obtain ⟨c, -, hc⟩ := List.exists_of_findSome?_eq_some (hcolumns.eq_error_iff.mp hfault)
    rw [ColumnDraft.objection?] at hc
    split at hc
    · cases hc
    · obtain rfl := Option.some.inj hc
      rfl
  · have hobjective : ∀ t ∈ s.toDraft.objectiveTerms, t.1 < s.columns.length := by
      intro t ht
      obtain ⟨r, hr, hmem⟩ := mem_objectiveTerms ht
      exact h.terms r hr t hmem
    refine Attempt.failsOnly_foldlM (P := IsOf id s.columns.length) (fun step hstep m hm => ?_)
      (fun step hstep m grown hm hgrown => ?_) (hcolumns.yields declared hdeclared)
    · rcases List.mem_append.mp hstep with hstep | hstep
      · obtain ⟨r, hr, hstep⟩ := List.mem_flatMap.mp hstep
        obtain ⟨name, relation, rhs, rfl⟩ := mem_rowSteps hstep
        have hfails := Model.failsOnly_addConstraint (owns_expression hm (h.terms r hr)) name
          relation rhs
        exact (hfails.map _).imp fun _ => Fault.IsOfNumber.isOfReference
      · rw [List.mem_singleton.mp hstep]
        have howned : ∀ t ∈ ((expression id s.objectiveTerms).withConstant s.constant).terms,
            m.owns t.1 = true := owns_expression hm hobjective
        exact (Model.failsOnly_setObjective howned s.sense).imp
          fun _ => Fault.IsOfNumber.isOfReference
    · -- no column is declared any more
      rcases List.mem_append.mp hstep with hstep | hstep
      · obtain ⟨r, -, hstep⟩ := List.mem_flatMap.mp hstep
        obtain ⟨name, relation, rhs, rfl⟩ := mem_rowSteps hstep
        obtain ⟨-, -, rfl⟩ := Model.of_constrain hgrown
        exact hm
      · rw [List.mem_singleton.mp hstep] at hgrown
        obtain ⟨-, -, rfl⟩ := Model.of_optimize hgrown
        exact hm

end Draft

/-! ## Lines that say something -/

theorem all_isBlank_of_wordsFrom {current cs : List Char}
    (h : Text.wordsFrom current cs = []) : current = [] ∧ cs.all Text.isBlank = true := by
  induction cs generalizing current with
  | nil =>
    rw [Text.wordsFrom] at h
    split at h
    · rename_i hempty
      exact ⟨List.isEmpty_iff.mp hempty, rfl⟩
    · cases h
  | cons c cs ih =>
    rw [Text.wordsFrom.eq_2] at h
    split at h
    · rename_i hc
      split at h
      · rename_i hempty
        rw [List.all_cons, hc, (ih h).2]
        exact ⟨List.isEmpty_iff.mp hempty, rfl⟩
      · cases h
    · exact absurd (ih h).1 (List.cons_ne_nil c current)

/-- **A line that says something has a field.** -/
theorem fields_ne_nil {cs : List Char} {l : Line} (h : Line.ofChars? cs = some l) :
    l.fields ≠ [] := by
  have hwords : ¬ cs.all Text.isBlank = true → Text.words cs ≠ [] := by
    intro hvisible hnil
    exact hvisible (all_isBlank_of_wordsFrom (List.map_eq_nil_iff.mp hnil)).2
  rw [ofChars?_eq] at h
  split at h
  · cases h
  · rename_i hsays
    rw [not_or] at hsays
    split at h
    · obtain rfl := Option.some.inj h
      exact hwords hsays.2
    · obtain rfl := Option.some.inj h
      exact hwords hsays.2

theorem fields_of_mem_numberedLines {text : String} {l : Nat × Line}
    (h : l ∈ numberedLines text) : l.2.fields ≠ [] := by
  obtain ⟨⟨cs, index⟩, -, hline⟩ := List.mem_filterMap.mp h
  obtain ⟨line, hsaid, rfl⟩ := Option.map_eq_some_iff.mp hline
  exact fields_ne_nil hsaid

/-- **Lines of a text are read in range.** -/
theorem agrees_lines {text : String} {lines : List (Nat × Line)}
    (h : lines <+: numberedLines text) :
    Access.Agrees Indexed.InOrder Access.left
      (Indexed.readLines .start lines (Indexed.initial : Indexed α))
      (Draft.readLines .initial .start lines) :=
  Indexed.agrees_readLines Indexed.inOrder_initial .start lines fun _ hl =>
    fields_of_mem_numberedLines (h.subset hl)

variable (α) in
/-- **No text makes the reader reach out of range.** After any number of lines there is an
outcome, the one of the reader, and the tables, the rows and the columns agree. The whole
text comes to an outcome too, and it is that of the reader. The model is never asked for a
name that is taken or a variable that is not there. -/
theorem read_stays_in_range (id : ModelId) (text : String) :
    (∀ lines, lines <+: numberedLines text → ∃ outcome s,
        Indexed.readLines .start lines (Indexed.initial : Indexed α) = some (outcome, s)
          ∧ Draft.readLines .initial .start lines = outcome.map (fun _ => s.toDraft)
          ∧ s.InOrder)
      ∧ Indexed.read id text = some (Mps.read id text : Except (Fault α) (Model α))
      ∧ ∀ fault : Fault α, Mps.read id text = .error fault → fault.isOfReference = false := by
  obtain ⟨outcome, s, hread, horder, hdraft⟩ := agrees_lines (α := α)
    (List.prefix_refl (numberedLines text))
  refine ⟨fun lines hlines => ?_, ?_, fun fault hfault => ?_⟩
  · obtain ⟨outcome, s, hread, horder, hdraft⟩ := agrees_lines (α := α) hlines
    exact ⟨outcome, s, hread, hdraft, horder⟩
  · rw [Indexed.read, hread, Mps.read, Draft.ofText, hdraft]
    show Indexed.andThen outcome _ = _
    cases outcome with
    | error fault => rfl
    | ok part => exact Indexed.assemble_eq horder id
  · rw [Mps.read, Draft.ofText, hdraft] at hfault
    cases houtcome : outcome with
    | ok part =>
      rw [houtcome] at hfault
      exact Draft.faults_of_toModel horder id fault hfault
    | error refused =>
      -- a fault of the lines names one of them
      rw [houtcome] at hdraft hfault
      obtain ⟨l, -, detail, hmps⟩ := Draft.line_of_readLines _ hdraft
      obtain rfl := Except.error.inj hfault
      rw [hmps]
      rfl

end Mps

end Milp
