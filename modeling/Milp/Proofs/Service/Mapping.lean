/-
What can be wrong with the model of a request.

Building the model of a message fails with a fault about the request: a client is told that
an argument is invalid, in words that do not depend on how models are called
(`failsOnly_toModel`). The one kind of fault whose wording would depend on it is about a
reference to another model. A message has names only, and a name that is found in a
well-formed model is one of its variables, so no such fault arises.
-/
import Milp.Proofs.Model.References
import Milp.Proofs.Model.WellFormed
import Milp.Service.Request
import Milp.Service.Response

set_option autoImplicit false

namespace Milp

open Attempt (FailsOnly failsOnly_ok failsOnly_error)

variable {α : Type} [Number α]

/-! ## Faults about a request -/

/-- A fault that a client is told about as an invalid argument, in words that do not depend
on how models are called. -/
structure Fault.IsAboutRequest (fault : Fault α) : Prop where
  kind : Service.classOf fault = .invalidArgument
  wording : ∀ nameOf, fault.describe nameOf = fault.message

theorem Fault.isAboutRequest_configuration (detail : String) :
    (Fault.configuration detail : Fault α).IsAboutRequest :=
  ⟨rfl, fun _ => rfl⟩

theorem Fault.isAboutRequest_described (text : String) :
    (Fault.unboundVariable (.described text) : Fault α).IsAboutRequest :=
  ⟨rfl, fun _ => rfl⟩

theorem Fault.IsOfNumber.isAboutRequest {fault : Fault α} (h : fault.IsOfNumber) :
    fault.IsAboutRequest := by
  obtain ⟨context, value, rfl⟩ := h
  exact ⟨rfl, fun _ => rfl⟩

/-! ## Growing a model -/

namespace Model

variable {m : Model α} {e : Affine α}

theorem failsOnly_declare (m : Model α) (name : String) (kind : VariableKind)
    (bounds : Interval α) : FailsOnly Fault.IsAboutRequest (m.declare name kind bounds) := by
  rw [declare]
  split
  · exact failsOnly_error ⟨rfl, fun _ => rfl⟩
  · dsimp only
    split
    · exact failsOnly_ok _
    · exact failsOnly_error ⟨rfl, fun _ => rfl⟩

/-- The terms of an expression are by references that the model gave out under names. -/
def Names (m : Model α) (e : Affine α) : Prop := ∀ t ∈ e.terms, ∃ name, m.handleOf? name = some t.1

omit [Number α] in
/-- A named reference is to a variable of the model. -/
theorem IsWellFormed.owns_of_names (h : m.IsWellFormed) (named : m.Names e) :
    ∀ t ∈ e.terms, m.owns t.1 = true := by
  intro t ht
  obtain ⟨name, hname⟩ := named t ht
  obtain ⟨hid, v, hv, -⟩ := h.handleOf?_eq_some_iff.mp hname
  obtain ⟨hlt, -⟩ := List.getElem?_eq_some_iff.mp hv
  rw [owns, hid, beq_self_eq_true, Bool.true_and, decide_eq_true_iff]
  exact hlt

end Model

/-! ## Reading a message -/

namespace Service

variable {m grown : Model α}

omit [Number α] in
theorem readTerm_eq_ok_iff {term : String × α} {read : Handle × α} :
    readTerm m term = .ok read ↔ m.handleOf? term.1 = some read.1 ∧ term.2 = read.2 := by
  rw [readTerm]
  cases m.handleOf? term.1 with
  | none => simp
  | some h => simp [Prod.ext_iff]

theorem failsOnly_readTerm (m : Model α) (term : String × α) :
    FailsOnly Fault.IsAboutRequest (readTerm m term) := by
  rw [readTerm]
  split
  · exact failsOnly_ok _
  · exact failsOnly_error (Fault.isAboutRequest_described _)

theorem failsOnly_readExpression (m : Model α) (terms : List (String × α)) :
    FailsOnly Fault.IsAboutRequest (readExpression m terms) :=
  (Attempt.failsOnly_mapM fun t _ => failsOnly_readTerm m t).map _

/-- Every term that was read goes back to a name of the model. -/
theorem names_of_readExpression {terms : List (String × α)} {e : Affine α}
    (h : readExpression m terms = .ok e) : m.Names e := by
  obtain ⟨read, hread, rfl⟩ := Attempt.map_eq_ok_iff.mp h
  intro t ht
  rw [Affine.ofTerms] at ht
  induction terms generalizing read with
  | nil =>
    obtain rfl : [] = read := Except.ok.inj hread
    cases ht
  | cons term terms ih =>
    rw [List.mapM_cons, Attempt.bind_eq_ok_iff] at hread
    obtain ⟨first, hfirst, hread⟩ := hread
    obtain ⟨rest, hrest, hread⟩ := Attempt.bind_eq_ok_iff.mp hread
    obtain rfl : first :: rest = read := Except.ok.inj hread
    rcases List.mem_cons.mp ht with rfl | ht
    · exact ⟨term.1, (readTerm_eq_ok_iff.mp hfirst).1⟩
    · exact ih (h := by rw [readExpression, hrest]; rfl) rest hrest ht

theorem failsOnly_addTo_variable (m : Model α) (v : VariableMessage α) :
    FailsOnly Fault.IsAboutRequest (v.addTo m) := by
  rw [VariableMessage.addTo]
  refine FailsOnly.bind ?_ fun kind _ =>
    (Model.failsOnly_declare m v.name kind v.bounds).bind fun _ _ => failsOnly_ok _
  rw [VariableMessage.readKind]
  split
  · exact failsOnly_ok _
  · exact failsOnly_error (Fault.isAboutRequest_configuration _)

theorem failsOnly_addTo_constraint (h : m.IsWellFormed) (c : ConstraintMessage α) :
    FailsOnly Fault.IsAboutRequest (c.addTo m) := by
  rw [ConstraintMessage.addTo]
  refine (failsOnly_readExpression m c.terms).bind fun e he => ?_
  have howned := h.owns_of_names (names_of_readExpression he)
  refine FailsOnly.bind ?_ fun relation _ =>
    ((Model.failsOnly_addConstraint howned _ relation c.rhs).imp
      fun _ => Fault.IsOfNumber.isAboutRequest).bind fun _ _ => failsOnly_ok _
  rw [ConstraintMessage.readRelation]
  split
  · exact failsOnly_ok _
  · exact failsOnly_error (Fault.isAboutRequest_configuration _)

theorem failsOnly_addTo_objective (h : m.IsWellFormed) (o : ObjectiveMessage α) :
    FailsOnly Fault.IsAboutRequest (o.addTo m) := by
  rw [ObjectiveMessage.addTo]
  refine FailsOnly.bind ?_ fun sense _ =>
    (failsOnly_readExpression m o.terms).bind fun e he => ?_
  · rw [ObjectiveMessage.readSense]
    split
    · exact failsOnly_ok _
    · exact failsOnly_error (Fault.isAboutRequest_configuration _)
  · have named : m.Names (e.withConstant o.constant) :=
      show m.Names e from names_of_readExpression he
    exact (Model.failsOnly_setObjective (h.owns_of_names named) sense).imp
      fun _ => Fault.IsOfNumber.isAboutRequest

/-! ### What was read so far -/

theorem isWellFormed_addTo_variable (h : m.IsWellFormed) {v : VariableMessage α}
    (hok : v.addTo m = .ok grown) : grown.IsWellFormed := by
  rw [VariableMessage.addTo, Attempt.bind_eq_ok_iff] at hok
  obtain ⟨kind, -, hok⟩ := hok
  obtain ⟨⟨handle, declared⟩, hdeclare, hok⟩ := Attempt.bind_eq_ok_iff.mp hok
  obtain rfl : declared = grown := Except.ok.inj hok
  have hstep : m.apply (.declare v.name kind v.bounds) = .ok declared := by
    rw [Model.apply, hdeclare]
    rfl
  exact h.apply hstep

theorem isWellFormed_addTo_constraint (h : m.IsWellFormed) {c : ConstraintMessage α}
    (hok : c.addTo m = .ok grown) : grown.IsWellFormed := by
  rw [ConstraintMessage.addTo, Attempt.bind_eq_ok_iff] at hok
  obtain ⟨e, -, hok⟩ := hok
  obtain ⟨relation, -, hok⟩ := Attempt.bind_eq_ok_iff.mp hok
  obtain ⟨⟨handle, posed⟩, hadd, hok⟩ := Attempt.bind_eq_ok_iff.mp hok
  obtain rfl : posed = grown := Except.ok.inj hok
  have hstep : m.apply (.constrain c.ownName? e relation c.rhs) = .ok posed := by
    rw [Model.apply, hadd]
    rfl
  exact h.apply hstep

/-- **Whatever is wrong with a message is the client's business**, and is said in words that
do not depend on how models are called. -/
theorem failsOnly_toModel (message : ModelMessage α) (id : ModelId) :
    FailsOnly Fault.IsAboutRequest (message.toModel id) := by
  rw [ModelMessage.toModel]
  refine FailsOnly.bind ?_ fun declared hdeclared => ?_
  · exact Attempt.failsOnly_foldlM (P := fun _ => True)
      (fun v _ c _ => failsOnly_addTo_variable c v) (fun _ _ _ _ _ _ => trivial) trivial
  have hvars : declared.IsWellFormed :=
    Attempt.foldlM_preserves (fun _ _ _ h hok => isWellFormed_addTo_variable h hok)
      (Model.isWellFormed_empty id message.name) hdeclared
  refine FailsOnly.bind ?_ fun posed hposed => ?_
  · exact Attempt.failsOnly_foldlM (fun c _ _ h => failsOnly_addTo_constraint h c)
      (fun _ _ _ _ h hok => isWellFormed_addTo_constraint h hok) hvars
  have hconstraints : posed.IsWellFormed :=
    Attempt.foldlM_preserves (fun _ _ _ h hok => isWellFormed_addTo_constraint h hok) hvars hposed
  split
  · exact failsOnly_addTo_objective hconstraints _
  · exact failsOnly_ok _

end Service

end Milp
