/-
Which handles a model takes.

A model takes a handle if the identity is its own and it has a variable at the position
(`Model.owns`). Then every use of the handle finds that variable. Any other handle is
refused wherever it is used, and a call that uses one fails with it, unless the call
stumbles over something else before (`Model.Refuses`). In an expression that uses no such
handle, only a number can be wrong (`failsOnly_checkedTerms`).
-/
import Milp.Proofs.Model.Building

set_option autoImplicit false

namespace Milp

open Attempt (FailsOnly failsOnly_ok failsOnly_error failsOnly_forM)

variable {α : Type} [Number α]

namespace BuildStep

omit [Number α] in
/-- The handles that a call uses. -/
def handles : BuildStep α → List Handle
  | .declare .. => []
  | .constrain _ e _ _ => e.terms.map Prod.fst
  | .optimize e _ => e.terms.map Prod.fst

end BuildStep

omit [Number α] in
/-- A fault of a coefficient, a constant or a right-hand side. -/
def Fault.IsOfNumber (fault : Fault α) : Prop :=
  ∃ context value, fault = .invalidCoefficient context value

namespace Model

section References

variable {m : Model α} {h : Handle}

omit [Number α] in
theorem variableOf_eq_ok_iff {v : Variable α} :
    m.variableOf h = .ok v ↔ h.model = m.id ∧ m.vars[h.index]? = some v := by
  rw [variableOf]
  by_cases hid : h.model = m.id
  · rw [if_pos (by simpa using hid)]
    cases m.vars[h.index]? with
    | none => simp
    | some w => simp [hid]
  · rw [if_neg (by simpa using hid)]
    simp [hid]

omit [Number α] in
theorem variableOf_eq_error (foreign : m.owns h = false) :
    m.variableOf h = .error (.unboundVariable (.handle h)) := by
  rw [variableOf]
  by_cases hid : h.model = m.id
  · have hout : m.vars.length ≤ h.index := by
      simpa [owns, hid] using foreign
    rw [if_pos (by simpa using hid), List.getElem?_eq_none hout]
  · rw [if_neg (by simpa using hid)]

omit [Number α] in
theorem exists_variableOf (owned : m.owns h = true) : ∃ v, m.variableOf h = .ok v := by
  obtain ⟨hid, hlt⟩ := Bool.and_eq_true_iff.mp owned
  obtain ⟨v, hv⟩ : ∃ v, m.vars[h.index]? = some v :=
    ⟨_, List.getElem?_eq_getElem (of_decide_eq_true hlt)⟩
  exact ⟨v, variableOf_eq_ok_iff.mpr ⟨of_decide_eq_true hid, hv⟩⟩

/-- The first thing that is wrong with an expression is a handle. -/
def StumblesOver (m : Model α) (e : Affine α) (h : Handle) : Prop :=
  ∃ before c after, e.terms = before ++ (h, c) :: after
    ∧ ∀ t ∈ before, m.owns t.1 = true ∧ Number.isFinite t.2 = true

/-- **A handle that is refused**, wherever it is used. -/
structure Refuses (m : Model α) (h : Handle) : Prop where
  looking : m.variableOf h = .error (.unboundVariable (.handle h))
  constraining : ∀ name e relation rhs, Number.isNaN rhs = false → m.StumblesOver e h →
    m.addConstraint name e relation rhs = .error (.unboundVariable (.handle h))
  optimizing : ∀ e sense, m.StumblesOver e h →
    m.setObjective e sense = .error (.unboundVariable (.handle h))

theorem checkedTerms_eq_error {context : String} {e : Affine α} (foreign : m.owns h = false)
    (stumbles : m.StumblesOver e h) :
    m.checkedTerms context e = .error (.unboundVariable (.handle h)) := by
  obtain ⟨before, c, after, hterms, hbefore⟩ := stumbles
  have hpassed : ∀ t ∈ before, m.checkTerm context t.1 t.2 = .ok () := by
    intro t ht
    obtain ⟨howned, hfinite⟩ := hbefore t ht
    obtain ⟨v, hv⟩ := exists_variableOf howned
    rw [checkTerm, hv]
    show (if Number.isFinite t.2 = true then _ else _) = _
    rw [if_pos hfinite]
    rfl
  have hstop : m.checkTerm context h c = .error (.unboundVariable (.handle h)) := by
    rw [checkTerm, variableOf_eq_error foreign]
    rfl
  rw [checkedTerms, hterms, Attempt.forM_eq_error hpassed hstop]
  rfl

theorem refuses_of_foreign (foreign : m.owns h = false) : m.Refuses h where
  looking := variableOf_eq_error foreign
  constraining := by
    intro name e relation rhs hnumber hstumbles
    have hnot : ¬ Number.isNaN rhs = true := by simp [hnumber]
    rw [addConstraint, addNamedConstraint, if_neg hnot, checkedTerms_eq_error foreign hstumbles]
    rfl
  optimizing := by
    intro e sense hstumbles
    rw [setObjective, checkedTerms_eq_error foreign hstumbles]
    rfl

section Owned

variable {e : Affine α}

/-- Of terms with variables of the model only the coefficients can be wrong. -/
theorem failsOnly_checkedTerms (owned : ∀ t ∈ e.terms, m.owns t.1 = true) (context : String) :
    FailsOnly Fault.IsOfNumber (m.checkedTerms context e) := by
  rw [checkedTerms]
  refine (failsOnly_forM fun t ht => ?_).bind fun _ _ => failsOnly_ok _
  obtain ⟨v, hv⟩ := exists_variableOf (owned t ht)
  show FailsOnly _ (m.checkTerm context t.1 t.2)
  rw [checkTerm, hv]
  refine (failsOnly_ok v).bind fun w _ => ?_
  split
  · exact failsOnly_ok ()
  · exact failsOnly_error ⟨_, _, rfl⟩

theorem failsOnly_addConstraint (owned : ∀ t ∈ e.terms, m.owns t.1 = true)
    (name : Option String) (relation : Relation) (rhs : α) :
    FailsOnly Fault.IsOfNumber (m.addConstraint name e relation rhs) := by
  rw [addConstraint, addNamedConstraint]
  split
  · exact (failsOnly_error ⟨_, _, rfl⟩).bind fun _ h => by cases h
  · exact (failsOnly_checkedTerms owned _).bind fun _ _ => failsOnly_ok _

theorem failsOnly_setObjective (owned : ∀ t ∈ e.terms, m.owns t.1 = true) (sense : Sense) :
    FailsOnly Fault.IsOfNumber (m.setObjective e sense) := by
  rw [setObjective]
  refine (failsOnly_checkedTerms owned _).bind fun _ _ => ?_
  split
  · exact failsOnly_ok _
  · exact failsOnly_error ⟨_, _, rfl⟩

end Owned

/-- Whatever handle an accepted call uses, the model knows it. -/
theorem exists_variableOf_of_apply {call : BuildStep α} {grown : Model α}
    (hok : m.apply call = .ok grown) : ∀ h ∈ call.handles, ∃ v, m.variableOf h = .ok v := by
  intro h hmem
  apply exists_variableOf
  cases call with
  | declare name kind bounds => cases hmem
  | constrain name e relation rhs =>
    obtain ⟨t, ht, rfl⟩ := List.mem_map.mp hmem
    exact ((of_constrain hok).2.1 t ht).1
  | optimize e sense =>
    obtain ⟨t, ht, rfl⟩ := List.mem_map.mp hmem
    exact ((of_optimize hok).1 t ht).1

end References

/-- A declaration fails, or adds a variable under the next handle. -/
theorem declare_cases (m : Model α) (name : String) (kind : VariableKind) (bounds : Interval α) :
    (∃ fault, m.declare name kind bounds = .error fault)
      ∨ m.declare name kind bounds = .ok (⟨m.id, m.vars.length⟩,
          m.withVariable ⟨name, kind, kind.effectiveBounds bounds⟩) := by
  rw [declare]
  by_cases hold : (m.handleOf? name).isSome = true
  · rw [if_pos hold]
    exact .inl ⟨_, rfl⟩
  · rw [if_neg hold]
    dsimp only
    by_cases hvalid : (kind.effectiveBounds bounds).isValid = true
    · rw [if_pos hvalid]
      exact .inr rfl
    · rw [if_neg hvalid]
      exact .inl ⟨_, rfl⟩

end Model

end Milp
