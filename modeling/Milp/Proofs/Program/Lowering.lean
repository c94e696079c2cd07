/-
From the steps that build a model to the program that is solved.

Between an expression as a caller writes it and the row or objective that a solver sees
stand three rewritings: terms of one variable are merged and cancelled ones dropped, the
constant moves to the other side, and the objective is spread over the columns. The
theorem of this file says that together they change nothing. It is about the steps, not
about the model in between: what each call was given, at any point of rationals.

Right-hand sides may be infinite. A relation to an infinity holds or fails whatever the
left-hand side is, and the violation of the row agrees with it (`violation_sub_eq_zero`),
because a finite constant that is taken from an infinity leaves it as it was.
-/
import Milp.Proofs.Affine.Normalized
import Milp.Proofs.Model.History

set_option autoImplicit false

namespace Milp

open Model (declared posed lastObjective)

/-! ## Relations -/

namespace Relation

/-- Whether a relation holds between two numbers. -/
def relates {α : Type} [Number α] (r : Relation) (left right : α) : Bool :=
  match r with
  | .atMost => Number.le left right
  | .equal => left == right
  | .atLeast => Number.le right left
  | .differs => !(left == right)

theorem relates_fin_iff (r : Relation) (left right : ℚ) :
    r.relates (ExtRat.fin left) (.fin right) = true ↔ r.Holds left right := by
  cases r <;> simp [relates, Holds]

theorem miss_eq_zero_iff (r : Relation) (left right : ℚ) :
    r.miss left right = 0 ↔ r.Holds left right := by
  have hnonneg : 0 ≤ r.miss left right := by
    cases r with
    | atMost => exact le_max_right _ _
    | equal => exact abs_nonneg _
    | atLeast => exact le_max_right _ _
    | differs =>
      rw [miss]
      split <;> norm_num
  rw [← miss_le_zero_iff]
  exact ⟨le_of_eq, fun h => le_antisymm h hnonneg⟩

/-- Nothing is missed after a constant has moved to the right exactly if the relation held
before. -/
theorem violation_sub_eq_zero (r : Relation) (left constant : ℚ) {rhs : ExtRat}
    (number : Number.isNaN rhs = false) :
    (r.violation (.fin left) (rhs - .fin constant) == 0)
      = r.relates (.fin (left + constant)) rhs := by
  cases rhs with
  | nan => cases number
  | fin right =>
    have hmoved : r.Holds left (right - constant) ↔ r.Holds (left + constant) right := by
      cases r with
      | atMost => exact le_sub_iff_add_le
      | equal => exact eq_sub_iff_add_eq
      | atLeast => exact sub_le_iff_le_add
      | differs => exact not_congr eq_sub_iff_add_eq
    rw [Bool.eq_iff_iff, relates_fin_iff, ← hmoved, ← miss_eq_zero_iff, ExtRat.fin_sub,
      violation_fin, ExtRat.zero_eq, ExtRat.beq_fin, decide_eq_true_iff]
  -- against an infinity the left-hand side does not matter
  | posInf =>
    rw [ExtRat.posInf_sub_fin]
    cases r with
    | atMost => simp [violation, relates]
    | equal => rfl
    | atLeast =>
      simp only [violation, relates, ExtRat.posInf_sub_fin, ExtRat.zero_eq, ExtRat.max_posInf_fin]
      rfl
    | differs =>
      have hne : ∀ a : ℚ, (ExtRat.fin a == ExtRat.posInf) = false := fun _ => rfl
      simp [violation, relates, hne]
  | negInf =>
    rw [ExtRat.negInf_sub_fin]
    cases r with
    | atMost =>
      simp only [violation, relates, ExtRat.fin_sub_negInf, ExtRat.zero_eq, ExtRat.max_posInf_fin]
      rfl
    | equal => rfl
    | atLeast => simp [violation, relates]
    | differs =>
      have hne : ∀ a : ℚ, (ExtRat.fin a == ExtRat.negInf) = false := fun _ => rfl
      simp [violation, relates, hne]

end Relation

/-! ## Programs -/

namespace Program

/-- **A program says what the steps said.** Its columns are the declared variables in their
order, and its rows the posed constraints: at every point a row is missed by nothing exactly
if the expression, as it was written, was in the relation to the right-hand side. Its
objective is the one set last. -/
structure Renders (p : Program ExtRat) (steps : List (BuildStep ExtRat)) : Prop where
  columns : List.Forall₂ (fun (c : Column ExtRat) v => c.name = v.name ∧ c.bounds = v.bounds
      ∧ (c.integer = true ↔ v.kind = .integer ∨ v.kind = .binary)) p.columns (declared steps)
  length : p.rows.length = (posed steps).length
  rows : ∀ (i : Nat) (r : Row ExtRat) (q : Posed ExtRat), p.rows[i]? = some r →
    (posed steps)[i]? = some q →
    r.name = q.name.getD ("c" ++ toString i) ∧ r.relation = q.relation
      ∧ ∀ x : List ℚ, x.length = (declared steps).length →
          (r.relation.violation (r.lhs (x.map .fin)) r.rhs == 0)
            = q.relation.relates (q.expression.evaluate (columnValue (x.map .fin))) q.rhs
  sense : p.sense = (lastObjective steps).2
  objective : ∀ x : List ℚ, x.length = (declared steps).length →
    p.objectiveValue (x.map .fin)
      = (lastObjective steps).1.evaluate (columnValue (x.map .fin))

section Renders

variable {id : ModelId} {name : String} {steps : List (BuildStep ExtRat)} {m : Model ExtRat}
  {backend : String} {capabilities : Capabilities} {p : Program ExtRat}

/-- A row and its constraint have the same left-hand side. -/
theorem lhs_rowOf {c : Constraint ExtRat} (h : ∀ t ∈ c.terms, Number.isFinite t.2 = true)
    (x : List ℚ) : (rowOf c).lhs (x.map .fin) = c.lhs (x.map .fin) := by
  have hrow : ∀ t ∈ (rowOf c).terms, t.2 = .fin t.2.value := by
    intro t ht
    obtain ⟨s, hs, rfl⟩ := List.mem_map.mp ht
    exact ExtRat.eq_fin_of_isFinite (h s (List.mem_of_mem_filter hs))
  rw [Row.lhs_of_finite hrow, lhs_eq_lhsOn h]

/-- **The row of a posed constraint** is missed by nothing exactly where the constraint was
meant to hold. -/
theorem violation_rowOf_stored {q : Posed ExtRat} (number : Number.isNaN q.rhs = false)
    (finite : ∀ t ∈ q.expression.terms, Number.isFinite t.2 = true)
    (constant : Number.isFinite q.expression.constant = true) (i : Nat) (x : List ℚ) :
    (q.relation.violation ((rowOf (q.stored i)).lhs (x.map .fin)) (rowOf (q.stored i)).rhs == 0)
      = q.relation.relates (q.expression.evaluate (columnValue (x.map .fin))) q.rhs := by
  have hnormalized : ∀ t ∈ (q.stored i).terms, Number.isFinite t.2 = true :=
    Affine.isFinite_normalizedTerms finite
  have hlhs : (q.stored i).lhs (x.map .fin)
      = Number.weightedSum q.expression.terms (columnValue (x.map .fin)) :=
    Affine.weightedSum_normalizedTerms_columnValue finite x
  have hrhs : (rowOf (q.stored i)).rhs = q.rhs - .fin q.expression.constant.value := by
    rw [← ExtRat.eq_fin_of_isFinite constant]
    rfl
  have hevaluate : q.expression.evaluate (columnValue (x.map .fin))
      = .fin (linearOn (columnTerms q.expression.terms) x + q.expression.constant.value) := by
    rw [Affine.evaluate, weightedSum_columnValue finite, ← ExtRat.fin_add,
      ← ExtRat.eq_fin_of_isFinite constant]
  rw [lhs_rowOf hnormalized, hlhs, weightedSum_columnValue finite, hrhs, hevaluate]
  exact Relation.violation_sub_eq_zero q.relation _ _ number

/-- The objective of a program is that of its model. -/
theorem objectiveValue_eq_evaluate (sound : m.IsSound)
    (lowered : ofModel m backend capabilities = .ok p) {x : List ℚ}
    (len : x.length = m.vars.length) :
    p.objectiveValue (x.map .fin) = m.objective.evaluate (x.map .fin) := by
  rw [evaluate_eq_objectiveOn sound lowered len]
  obtain ⟨-, rfl⟩ := ofModel_eq_ok_iff.mp lowered
  exact objectiveValue_of_finite (objective_columnsOf sound)
    (ExtRat.eq_fin_of_isFinite sound.constant) x

theorem forall₂_columnsOf (m : Model ExtRat) :
    List.Forall₂ (fun (c : Column ExtRat) v => c.name = v.name ∧ c.bounds = v.bounds
      ∧ (c.integer = true ↔ v.kind = .integer ∨ v.kind = .binary)) (columnsOf m) m.vars := by
  rw [List.forall₂_iff_get]
  refine ⟨length_columnsOf, fun i hi hv => ?_⟩
  simp only [columnsOf, List.get_eq_getElem, List.getElem_mapIdx, Variable.isIntegral,
    VariableKind.isIntegral_iff, and_self]

theorem renders_of_ofModel (built : Model.build id name steps = .ok m)
    (finite : ∀ q ∈ posed steps, Number.isFinite q.expression.constant = true)
    (lowered : ofModel m backend capabilities = .ok p) : p.Renders steps := by
  obtain ⟨hvars, hconstraints, hobjective⟩ := Model.build_history built
  have sound := Model.isSound_of_build built
  have hvalue : ∀ x : List ℚ, x.length = (declared steps).length →
      p.objectiveValue (x.map .fin)
        = (lastObjective steps).1.evaluate (columnValue (x.map .fin)) := by
    intro x len
    have hterms :=
      Affine.weightedSum_normalizedTerms_columnValue (Model.passed_lastObjective built) x
    rw [objectiveValue_eq_evaluate sound lowered (hvars ▸ len), hobjective, Objective.evaluate,
      Objective.ofAffine, hterms]
    rfl
  obtain ⟨-, rfl⟩ := ofModel_eq_ok_iff.mp lowered
  refine ⟨hvars ▸ forall₂_columnsOf m, ?_, fun i r q hr hq => ?_, ?_, hvalue⟩
  · simp [hconstraints]
  · -- the row at a position comes from the constraint that was posed there
    obtain rfl : rowOf (q.stored i) = r := by
      simpa [hconstraints, hq] using hr
    obtain ⟨number, passed⟩ := Model.passed_of_mem_posed built (List.mem_of_getElem? hq)
    refine ⟨rfl, rfl, fun x _ => ?_⟩
    exact violation_rowOf_stored number passed (finite q (List.mem_of_getElem? hq)) i x
  · show m.objective.sense = _
    rw [hobjective]
    rfl

end Renders

/-- **Building and lowering preserve the problem.** Whatever calls built a model, as long as
the constants of the constraints were finite: the model is refused exactly if a relation or
a kind of variables is beyond the solver's means, and otherwise its program says what the
calls said. -/
theorem ofModel_renders_steps (id : ModelId) (name : String) (steps : List (BuildStep ExtRat))
    (m : Model ExtRat) (built : Model.build id name steps = .ok m)
    (finite : ∀ q ∈ posed steps, Number.isFinite q.expression.constant = true)
    (backend : String) (capabilities : Capabilities) :
    ((∃ construct, ofModel m backend capabilities
          = .error (.unsupportedConstruct backend construct))
        ↔ capabilities.Exceeded ((posed steps).map (·.relation)) ((declared steps).map (·.kind)))
      ∧ (¬ capabilities.Exceeded ((posed steps).map (·.relation)) ((declared steps).map (·.kind)) →
        ∃ p, ofModel m backend capabilities = .ok p ∧ p.Renders steps
          ∧ ∀ x : List ℚ, x.length = (declared steps).length →
              p.objectiveValue (x.map .fin) = m.objective.evaluate (x.map .fin)) := by
  obtain ⟨hvars, hconstraints, -⟩ := Model.build_history built
  have hrelations : (posed steps).map (·.relation) = m.constraints.map (·.relation) := by
    rw [hconstraints]
    exact List.ext_getElem (by simp) fun i _ _ => by simp [Posed.stored]
  rw [hrelations, ← hvars]
  have hsupported : ¬ capabilities.Exceeded (m.constraints.map (·.relation))
      (m.vars.map (·.kind)) → ∃ p, ofModel m backend capabilities = .ok p := by
    intro h
    exact ⟨_, ofModel_eq_ok_iff.mpr ⟨(Capabilities.checkSupport_eq_ok_iff backend).mpr h, rfl⟩⟩
  refine ⟨⟨fun ⟨construct, herror⟩ => ?_, fun h => ?_⟩, fun h => ?_⟩
  · by_contra hnot
    obtain ⟨p, hp⟩ := hsupported hnot
    rw [hp] at herror
    cases herror
  · obtain ⟨construct, herror⟩ := Capabilities.checkSupport_of_exceeded backend h
    exact ⟨construct, by rw [ofModel, herror]; rfl⟩
  · obtain ⟨p, hp⟩ := hsupported h
    exact ⟨p, hp, renders_of_ofModel built finite hp,
      fun x len => objectiveValue_eq_evaluate (Model.isSound_of_build built) hp len⟩

/-- A whole `x` and a binary `y`; in the first constraint `x` cancels, the second asks for
nothing. -/
def mixtureSteps : List (BuildStep ExtRat) :=
  [.declare "x" .integer ⟨.fin 0, .fin 10⟩,
    .declare "y" .binary ⟨.fin (-3), .fin 5⟩,
    .constrain (some "mix")
      ⟨[(⟨⟨1⟩, 0⟩, .fin 2), (⟨⟨1⟩, 1⟩, .fin 1), (⟨⟨1⟩, 0⟩, .fin (-2))], .fin 1⟩
      .atMost (.fin 4),
    .constrain none ⟨[(⟨⟨1⟩, 1⟩, .fin 3)], .fin 2⟩ .atMost .posInf,
    .optimize ⟨[(⟨⟨1⟩, 0⟩, .fin 1), (⟨⟨1⟩, 1⟩, .fin 2), (⟨⟨1⟩, 0⟩, .fin 1)], .fin 5⟩ .maximize]

/-- The model that these steps build. -/
def mixture : Model ExtRat where
  id := ⟨1⟩
  name := ""
  vars := [⟨"x", .integer, ⟨.fin 0, .fin 10⟩⟩, ⟨"y", .binary, ⟨.fin 0, .fin 1⟩⟩]
  constraints := [⟨"mix", [(⟨⟨1⟩, 1⟩, .fin 1)], .atMost, .fin 3⟩,
    ⟨"c1", [(⟨⟨1⟩, 1⟩, .fin 3)], .atMost, .posInf⟩]
  objective := ⟨.maximize, [(⟨⟨1⟩, 0⟩, .fin 2), (⟨⟨1⟩, 1⟩, .fin 2)], .fin 5⟩

theorem mixture_built : Model.build ⟨1⟩ "" mixtureSteps = .ok mixture := by
  with_unfolding_all rfl

/-- A solver of continuous problems refuses it; for the others its program says what the
steps said. -/
theorem ofModel_renders_steps_mixture :
    (∃ construct, ofModel mixture "simplex" ⟨Relation.linear, false⟩
        = .error (.unsupportedConstruct "simplex" construct))
      ∧ ∃ p, ofModel mixture "bnb" .mixedInteger = .ok p ∧ p.Renders mixtureSteps
        ∧ p.objectiveValue ([3, 1].map .fin) = mixture.objective.evaluate ([3, 1].map .fin) := by
  have hfinite : ∀ q ∈ posed mixtureSteps, Number.isFinite q.expression.constant = true := by
    decide
  obtain ⟨hrefused, -⟩ := ofModel_renders_steps ⟨1⟩ "" mixtureSteps mixture mixture_built hfinite
    "simplex" ⟨Relation.linear, false⟩
  obtain ⟨-, htaken⟩ := ofModel_renders_steps ⟨1⟩ "" mixtureSteps mixture mixture_built hfinite
    "bnb" .mixedInteger
  refine ⟨hrefused.mpr (by unfold Capabilities.Exceeded; decide), ?_⟩
  obtain ⟨p, hp, hrenders, hobjective⟩ := htaken (by unfold Capabilities.Exceeded; decide)
  exact ⟨p, hp, hrenders, hobjective [3, 1] rfl⟩

end Program

end Milp
