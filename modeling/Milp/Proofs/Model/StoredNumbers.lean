/-
The numbers that a model stores.

A call is checked as it is written. A right-hand side must be a number, every coefficient
finite, and the constant of an objective too. What is stored is computed afterwards. A
constraint's constant is taken from its right-hand side, and the coefficients of a variable
are added up. This file says which stored numbers are not what the checks were for, after
any calls.

The constant of a constraint is checked nowhere. If it is no number, or the infinity that
the right-hand side is, the right-hand side that is stored is no number. A merged
coefficient is always a number, but where a sum of finite coefficients overflows it is
infinite. Nothing else goes wrong (`stored_numbers`).
-/
import Milp.Proofs.Affine.Coefficients
import Milp.Proofs.Model.WellFormed

set_option autoImplicit false

namespace Milp

variable {α : Type} [Number α]

/-- The constant takes the right-hand side away: it is no number, or the infinity that the
right-hand side is. -/
def Posed.IsSpoilt (q : Posed α) : Prop :=
  Number.isNaN q.expression.constant = true
    ∨ (q.rhs == q.expression.constant) = true ∧ Number.isFinite q.rhs = false

/-- What stored terms are, as those of an expression. All coefficients are numbers, and the
infinite ones have overflowed. -/
def Affine.KeepsNumbers (e : Affine α) (terms : List (Handle × α)) : Prop :=
  ∀ t ∈ terms,
    Number.isNaN t.2 = false ∧ (Number.isFinite t.2 = true ↔ ¬ e.Overflows t.1)

namespace Model

/-- **The numbers of a model**, after the calls that were accepted. What these were given
has passed the checks, and what is stored are numbers but for the right-hand sides that
were spoilt, and finite but for the coefficients that have overflowed. -/
structure NumbersIn (m : Model α) (made : List (BuildStep α)) : Prop where
  given : ∀ q ∈ posed made,
    Number.isNaN q.rhs = false ∧ ∀ t ∈ q.expression.terms, Number.isFinite t.2 = true
  rhs : List.Forall₂ (fun c (q : Posed α) => Number.isNaN c.rhs = true ↔ q.IsSpoilt)
    m.constraints (posed made)
  coefficients : List.Forall₂ (fun c (q : Posed α) => q.expression.KeepsNumbers c.terms)
    m.constraints (posed made)
  aims : ∀ t ∈ (lastObjective made).1.terms, Number.isFinite t.2 = true
  objective : (lastObjective made).1.KeepsNumbers m.objective.terms
  constant : Number.isFinite m.objective.constant = true

section Special

variable [Number.Special α]

theorem isNaN_rhs_stored {q : Posed α} (number : Number.isNaN q.rhs = false) (position : Nat) :
    Number.isNaN (q.stored position).rhs = true ↔ q.IsSpoilt := by
  have hrhs : ¬ Number.isNaN q.rhs = true := by simp [number]
  rw [Posed.stored, Number.isNaN_sub_iff, Posed.IsSpoilt]
  exact or_iff_right hrhs

theorem keepsNumbers_normalizedTerms {e : Affine α}
    (finite : ∀ t ∈ e.terms, Number.isFinite t.2 = true) : e.KeepsNumbers e.normalizedTerms :=
  fun _ => Affine.isFinite_of_mem_normalizedTerms finite

/-- The constant of the objective that counts has been checked, or is zero. -/
theorem isFinite_constant_lastObjective {id : ModelId} {name : String} {m : Model α}
    {steps : List (BuildStep α)} (built : build id name steps = .ok m) :
    Number.isFinite (lastObjective steps).1.constant = true := by
  rcases lastObjective_cases steps with hzero | hset
  · rw [hzero]
    exact Number.isFinite_zero
  · exact (passed_of_applyAll built _ hset).1

/-- **What a model stores after any calls.** A right-hand side is no number exactly if a
constant has spoilt it, a coefficient is infinite exactly if it has overflowed, and the
constant of the objective is finite. -/
theorem stored_numbers (id : ModelId) (name : String) (steps : List (BuildStep α)) :
    ((empty id name).attemptAll steps).NumbersIn ((empty id name).accepted steps) := by
  set m := (empty id name).attemptAll steps with hm
  set made := (empty id name).accepted steps with hmade
  have built : build id name made = .ok m := applyAll_accepted _ steps
  obtain ⟨-, hconstraints, hobjective⟩ := build_history built
  have hpassed := fun q (hq : q ∈ posed made) => passed_of_mem_posed built hq
  -- the constraints are stored in the order in which they were posed
  have hpaired : ∀ {R : Constraint α → Posed α → Prop},
      (∀ q ∈ posed made, ∀ i, R (q.stored i) q) → List.Forall₂ R m.constraints (posed made) := by
    intro R hR
    rw [hconstraints, List.forall₂_iff_get]
    refine ⟨by simp, fun i hi hq => ?_⟩
    simp only [List.get_eq_getElem, List.getElem_mapIdx]
    exact hR _ (List.getElem_mem hq) i
  refine ⟨hpassed, hpaired fun q hq i => isNaN_rhs_stored (hpassed q hq).1 i,
    hpaired fun q hq i => keepsNumbers_normalizedTerms (hpassed q hq).2,
    passed_lastObjective built, ?_, ?_⟩
  · rw [hobjective]
    exact keepsNumbers_normalizedTerms (passed_lastObjective built)
  · rw [hobjective]
    exact isFinite_constant_lastObjective built

end Special

/-! ## A spoilt constraint -/

/-- Calls of which two are refused; the constant of the first constraint is the infinity of
its right-hand side. -/
def spoilingSteps : List (BuildStep ExtRat) :=
  [.declare "x" .continuous .nonNegative,
    .constrain none ⟨[(⟨⟨1⟩, 0⟩, .fin 1)], .posInf⟩ .atMost .posInf,
    .constrain none (.ofTerm ⟨⟨1⟩, 0⟩ .posInf) .atMost (.fin 1),
    .constrain none ⟨[(⟨⟨1⟩, 0⟩, .fin 1), (⟨⟨1⟩, 0⟩, .fin 2)], .fin 4⟩ .atMost (.fin 10),
    .optimize ⟨[(⟨⟨1⟩, 0⟩, .fin 1)], .nan⟩ .maximize,
    .optimize ⟨[(⟨⟨1⟩, 0⟩, .fin 1)], .fin 7⟩ .maximize]

/-- What they leave behind. -/
def spoilt : Model ExtRat where
  id := ⟨1⟩
  name := ""
  vars := [⟨"x", .continuous, .nonNegative⟩]
  constraints := [⟨"c0", [(⟨⟨1⟩, 0⟩, .fin 1)], .atMost, .nan⟩,
    ⟨"c1", [(⟨⟨1⟩, 0⟩, .fin 3)], .atMost, .fin 6⟩]
  objective := ⟨.maximize, [(⟨⟨1⟩, 0⟩, .fin 1)], .fin 7⟩

theorem attemptAll_spoilingSteps : (empty ⟨1⟩ "").attemptAll spoilingSteps = spoilt := by
  with_unfolding_all rfl

/-- Four of the six calls count, and one of the two constraints is spoilt. -/
theorem stored_numbers_spoilt :
    ∃ made, made.length = 4 ∧ spoilt.NumbersIn made
      ∧ spoilt.constraints.map (fun c => Number.isNaN c.rhs) = [true, false] := by
  have hnumbers := stored_numbers ⟨1⟩ "" spoilingSteps
  rw [attemptAll_spoilingSteps] at hnumbers
  exact ⟨(empty ⟨1⟩ "").accepted spoilingSteps, by with_unfolding_all rfl, hnumbers, by decide⟩

/-- The checks do not keep every right-hand side a number. -/
theorem rhs_may_be_nan :
    ¬ ∀ (steps : List (BuildStep ExtRat)), ∀ c ∈ ((empty ⟨1⟩ "").attemptAll steps).constraints,
      Number.isNaN c.rhs = false := by
  intro h
  have hfirst := h spoilingSteps
  rw [attemptAll_spoilingSteps] at hfirst
  have hnumber := hfirst ⟨"c0", [(⟨⟨1⟩, 0⟩, .fin 1)], .atMost, .nan⟩ List.mem_cons_self
  cases hnumber

end Model

end Milp
