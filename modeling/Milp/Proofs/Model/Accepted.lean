/-
Steps that succeed.

The other files about building read a success backwards. Here the checks are passed: a step
whose demands are met yields the model with what the step adds, and lists of such steps
yield it with everything they add. Where a text has been read into steps, this is what
turns them into a model.
-/
import Milp.Proofs.Model.WellFormed

set_option autoImplicit false

namespace Milp

variable {α : Type} [Number α]

/-- The step that declares a variable. -/
def Variable.declaration (v : Variable α) : BuildStep α := .declare v.name v.kind v.bounds

/-- What a variable is declared with is what is stored, and it is valid. -/
structure Variable.IsSettled (v : Variable α) : Prop where
  effective : v.kind.effectiveBounds v.bounds = v.bounds
  valid : v.bounds.isValid = true

namespace Model

/-! ## Steps -/

section Steps

variable {m : Model α}

omit [Number α] in
theorem IsWellFormed.handleOf?_eq_none (h : m.IsWellFormed) {name : String}
    (new : name ∉ m.vars.map (·.name)) : m.handleOf? name = none := by
  cases hfound : m.handleOf? name with
  | none => rfl
  | some k =>
    obtain ⟨-, v, hv, hname⟩ := h.handleOf?_eq_some_iff.mp hfound
    exact absurd (hname ▸ List.mem_map_of_mem (List.mem_of_getElem? hv)) new

omit [Number α] in
theorem IsWellFormed.isSome_handleOf? (h : m.IsWellFormed) (name : String) :
    (m.handleOf? name).isSome = true ↔ name ∈ m.vars.map (·.name) := by
  constructor
  · intro hsome
    by_contra hnew
    rw [h.handleOf?_eq_none hnew] at hsome
    cases hsome
  · intro hmem
    by_contra hnone
    rw [Option.isSome_iff_ne_none, not_not] at hnone
    exact h.not_mem_names hnone hmem

/-- With a new name, only the bounds of a declaration are in question. -/
theorem apply_declare {name : String} (new : m.handleOf? name = none) (kind : VariableKind)
    (bounds : Interval α) :
    m.apply (.declare name kind bounds)
      = if (kind.effectiveBounds bounds).isValid
        then .ok (m.withVariable ⟨name, kind, kind.effectiveBounds bounds⟩)
        else .error (.invalidBounds name (kind.effectiveBounds bounds).lower
          (kind.effectiveBounds bounds).upper) := by
  have hnew : ¬ (m.handleOf? name).isSome = true := by simp [new]
  rw [apply, declare, if_neg hnew]
  dsimp only
  split <;> rfl

theorem apply_declaration {v : Variable α} (new : m.handleOf? v.name = none)
    (settled : v.IsSettled) : m.apply v.declaration = .ok (m.withVariable v) := by
  rw [Variable.declaration, apply_declare new, settled.effective, if_pos settled.valid]

theorem checkTerm_eq_ok {context : String} {h : Handle} {c : α} (owned : m.owns h = true)
    (finite : Number.isFinite c = true) : m.checkTerm context h c = .ok () := by
  obtain ⟨hid, hlt⟩ := Bool.and_eq_true_iff.mp owned
  obtain ⟨v, hget⟩ : ∃ v, m.vars[h.index]? = some v :=
    ⟨_, List.getElem?_eq_getElem (of_decide_eq_true hlt)⟩
  rw [checkTerm, variableOf, if_pos hid, hget]
  show (if Number.isFinite c = true then _ else _) = _
  rw [if_pos finite]
  rfl

/-- An expression over the variables of the model, with finite coefficients. -/
def Takes (m : Model α) (e : Affine α) : Prop :=
  ∀ t ∈ e.terms, m.owns t.1 = true ∧ Number.isFinite t.2 = true

theorem checkedTerms_eq_ok {context : String} {e : Affine α} (takes : m.Takes e) :
    m.checkedTerms context e = .ok e.normalizedTerms := by
  rw [checkedTerms, Attempt.forM_eq_ok_iff.mpr fun t ht =>
    checkTerm_eq_ok (takes t ht).1 (takes t ht).2]
  rfl

theorem apply_constrain {name : String} {e : Affine α} {relation : Relation} {rhs : α}
    (number : Number.isNaN rhs = false) (takes : m.Takes e) :
    m.apply (.constrain (some name) e relation rhs)
      = .ok (m.withConstraint ⟨name, e.normalizedTerms, relation, rhs - e.constant⟩) := by
  have hnumber : ¬ Number.isNaN rhs = true := by simp [number]
  rw [apply, addConstraint, Option.getD_some, addNamedConstraint, if_neg hnumber,
    checkedTerms_eq_ok takes]
  rfl

theorem apply_optimize {e : Affine α} {sense : Sense}
    (finite : Number.isFinite e.constant = true) (takes : m.Takes e) :
    m.apply (.optimize e sense)
      = .ok (m.withObjective ⟨sense, e.normalizedTerms, e.constant⟩) := by
  rw [apply, setObjective, checkedTerms_eq_ok takes]
  show (if Number.isFinite e.constant = true then _ else _) = _
  rw [if_pos finite]
  rfl

end Steps

/-! ## Runs -/

theorem applyAll_append (m : Model α) (steps more : List (BuildStep α)) :
    m.applyAll (steps ++ more) = m.applyAll steps >>= fun grown => grown.applyAll more :=
  List.foldlM_append

theorem applyAll_singleton (m : Model α) (step : BuildStep α) :
    m.applyAll [step] = m.apply step := by
  rw [applyAll, List.foldlM_cons]
  cases m.apply step <;> rfl

/-- A model with variables and nothing else. -/
def ofVariables (id : ModelId) (name : String) (vars : List (Variable α)) : Model α where
  id := id
  name := name
  vars := vars
  constraints := []
  objective := .initial

theorem isWellFormed_ofVariables {id : ModelId} {name : String} {vars : List (Variable α)}
    (names : (vars.map (·.name)).Nodup) : (ofVariables id name vars).IsWellFormed where
  names := names
  positions := rfl
  constraints c hc := by cases hc
  objective t ht := by cases ht

/-- **Variables with distinct names can be declared** one after the other. -/
theorem build_declarations (id : ModelId) (name : String) {vars : List (Variable α)}
    (names : (vars.map (·.name)).Nodup) (settled : ∀ v ∈ vars, v.IsSettled) :
    build id name (vars.map Variable.declaration) = .ok (ofVariables id name vars) := by
  induction vars using List.reverseRecOn with
  | nil => rfl
  | append_singleton vars v ih =>
    rw [List.map_append, List.map_singleton, ← List.concat_eq_append,
      List.nodup_concat] at names
    obtain ⟨hfresh, hnames⟩ := names
    have hnew : (ofVariables id name vars).handleOf? v.name = none :=
      (isWellFormed_ofVariables hnames).handleOf?_eq_none hfresh
    have hbuilt := ih hnames fun w hw => settled w (List.mem_append_left _ hw)
    rw [build] at hbuilt ⊢
    rw [List.map_append, applyAll_append, hbuilt]
    show (ofVariables id name vars).applyAll [v.declaration] = _
    rw [applyAll_singleton, apply_declaration hnew (settled v (by simp))]
    simp only [withVariable, ofVariables, List.mapIdx_concat]

/-- The model with further constraints. -/
def withConstraints (m : Model α) (cs : List (Constraint α)) : Model α :=
  { m with constraints := m.constraints ++ cs }

/-- Constraints are added item by item where each item's steps add its own to every model
with the same variables. -/
theorem applyAll_flatMap {β : Type} {steps : β → List (BuildStep α)}
    {added : β → List (Constraint α)} {items : List β} (m : Model α)
    (h : ∀ b ∈ items, ∀ cs, (m.withConstraints cs).applyAll (steps b)
      = .ok (m.withConstraints (cs ++ added b))) :
    m.applyAll (items.flatMap steps) = .ok (m.withConstraints (items.flatMap added)) := by
  have hfrom : ∀ cs, (m.withConstraints cs).applyAll (items.flatMap steps)
      = .ok (m.withConstraints (cs ++ items.flatMap added)) := by
    induction items with
    | nil =>
      intro cs
      rw [List.flatMap_nil, List.flatMap_nil, List.append_nil]
      rfl
    | cons b items ih =>
      intro cs
      obtain ⟨hb, hitems⟩ := List.forall_mem_cons.mp h
      rw [List.flatMap_cons, List.flatMap_cons, applyAll_append, hb cs, ← List.append_assoc]
      exact ih hitems _
  have hnone : m.withConstraints [] = m := by
    rw [withConstraints, List.append_nil]
  have hall := hfrom []
  rw [hnone, List.nil_append] at hall
  exact hall

end Model

end Milp
