/-
What is true of every model that was built.

A model is reached by steps that check what they are given (`Milp.Model.Building`), so a
property of the empty model that every step preserves is one of every model
(`build_induction`). The property proved here is the one that solving relies on. Every
bound pair is valid, every term is of a variable of the model, and every coefficient is
finite.

The checks look at the terms as they are written, while a model stores them merged. That
the merged coefficients are finite again is a fact about exact arithmetic: in binary
floating point a sum of finite numbers may overflow.
-/
import Milp.Model.Building
import Milp.Proofs.Attempt
import Milp.Proofs.Number.Exact

set_option autoImplicit false

namespace Milp

/-! ## Merged terms -/

namespace Affine

theorem isFinite_add {a b : ExtRat} (ha : Number.isFinite a = true)
    (hb : Number.isFinite b = true) : Number.isFinite (a + b) = true := by
  rw [ExtRat.eq_fin_of_isFinite ha, ExtRat.eq_fin_of_isFinite hb]
  rfl

/-- Merging a term into others keeps to handles of one kind and finite coefficients. -/
theorem forall_mergeTerm {P : Handle → Prop} {h : Handle} {c : ExtRat} (hP : P h)
    (hc : Number.isFinite c = true) {merged : List (Handle × ExtRat)}
    (hmerged : ∀ t ∈ merged, P t.1 ∧ Number.isFinite t.2 = true) :
    ∀ t ∈ mergeTerm h c merged, P t.1 ∧ Number.isFinite t.2 = true := by
  induction merged with
  | nil =>
    intro t ht
    rw [mergeTerm, List.mem_singleton] at ht
    rw [ht]
    exact ⟨hP, hc⟩
  | cons s rest ih =>
    obtain ⟨hs, hrest⟩ := List.forall_mem_cons.mp hmerged
    rw [mergeTerm]
    split
    · exact List.forall_mem_cons.mpr ⟨⟨hs.1, isFinite_add hs.2 hc⟩, hrest⟩
    · exact List.forall_mem_cons.mpr ⟨hs, ih hrest⟩

/-- Merging terms keeps to handles of one kind and finite coefficients. -/
theorem forall_mergedTerms {P : Handle → Prop} {terms : List (Handle × ExtRat)}
    (h : ∀ t ∈ terms, P t.1 ∧ Number.isFinite t.2 = true) :
    ∀ t ∈ mergedTerms terms, P t.1 ∧ Number.isFinite t.2 = true := by
  -- merging folds over the terms, so what was merged before is arbitrary in the induction
  have hmerged : ∀ (terms merged : List (Handle × ExtRat)),
      (∀ t ∈ terms, P t.1 ∧ Number.isFinite t.2 = true) →
      (∀ t ∈ merged, P t.1 ∧ Number.isFinite t.2 = true) →
      ∀ t ∈ terms.foldl (fun merged (h, c) => mergeTerm h c merged) merged,
        P t.1 ∧ Number.isFinite t.2 = true := by
    intro terms
    induction terms with
    | nil => exact fun merged _ hmerged => hmerged
    | cons t terms ih =>
      intro merged hterms hmerged
      obtain ⟨ht, hterms⟩ := List.forall_mem_cons.mp hterms
      exact ih _ hterms (forall_mergeTerm ht.1 ht.2 hmerged)
  exact hmerged terms [] h fun _ ht => by cases ht

theorem forall_normalizedTerms {P : Handle → Prop} {e : Affine ExtRat}
    (h : ∀ t ∈ e.terms, P t.1 ∧ Number.isFinite t.2 = true) :
    ∀ t ∈ e.normalizedTerms, P t.1 ∧ Number.isFinite t.2 = true :=
  fun t ht => forall_mergedTerms h t (List.mem_of_mem_filter ht)

theorem isFinite_mergedTerms {terms : List (Handle × ExtRat)}
    (h : ∀ t ∈ terms, Number.isFinite t.2 = true) :
    ∀ t ∈ mergedTerms terms, Number.isFinite t.2 = true :=
  fun t ht => (forall_mergedTerms (P := fun _ => True) (fun s hs => ⟨trivial, h s hs⟩) t ht).2

theorem isFinite_normalizedTerms {e : Affine ExtRat}
    (h : ∀ t ∈ e.terms, Number.isFinite t.2 = true) :
    ∀ t ∈ e.normalizedTerms, Number.isFinite t.2 = true :=
  fun t ht => isFinite_mergedTerms h t (List.mem_of_mem_filter ht)

end Affine

namespace Model

/-! ## Successful steps -/

section Steps

variable {α : Type} [Number α]

/-- What holds of the empty model and is preserved by every step holds of every model
that was built. -/
theorem build_induction {P : Model α → Prop} {id : ModelId} {name : String}
    {steps : List (BuildStep α)} {m : Model α} (h : build id name steps = .ok m)
    (start : P (empty id name)) (step : ∀ m s grown, P m → m.apply s = .ok grown → P grown) :
    P m :=
  Attempt.foldlM_preserves step start h

omit [Number α] in
theorem owns_of_variableOf {m : Model α} {h : Handle} {v : Variable α}
    (hv : m.variableOf h = .ok v) : m.owns h = true := by
  rw [variableOf] at hv
  split at hv
  · rename_i hid
    split at hv
    · rename_i w hget
      have hlt := (List.getElem?_eq_some_iff.mp hget).1
      rw [owns, hid, Bool.true_and, decide_eq_true_iff]
      exact hlt
    · cases hv
  · cases hv

theorem of_checkTerm {m : Model α} {context : String} {h : Handle} {c : α}
    (hok : m.checkTerm context h c = .ok ()) : m.owns h = true ∧ Number.isFinite c = true := by
  rw [checkTerm, Attempt.bind_eq_ok_iff] at hok
  obtain ⟨v, hv, hfinite⟩ := hok
  refine ⟨owns_of_variableOf hv, ?_⟩
  by_contra hnot
  rw [if_neg hnot] at hfinite
  cases hfinite

/-- Checked terms are the normalized ones, and all that were written have passed. -/
theorem of_checkedTerms {m : Model α} {context : String} {e : Affine α}
    {terms : List (Handle × α)} (hok : m.checkedTerms context e = .ok terms) :
    terms = e.normalizedTerms
      ∧ ∀ t ∈ e.terms, m.owns t.1 = true ∧ Number.isFinite t.2 = true := by
  rw [checkedTerms, Attempt.bind_eq_ok_iff] at hok
  obtain ⟨⟨⟩, hcheck, hterms⟩ := hok
  injection hterms with hterms
  exact ⟨hterms.symm, fun t ht => of_checkTerm (Attempt.forM_eq_ok_iff.mp hcheck t ht)⟩

/-- The model with one more variable, whose name is in the index. -/
def withVariable (m : Model α) (v : Variable α) : Model α :=
  { m with vars := m.vars ++ [v], positions := m.positions ++ [(v.name, m.vars.length)] }

/-- The model with one more constraint. -/
def withConstraint (m : Model α) (c : Constraint α) : Model α :=
  { m with constraints := m.constraints ++ [c] }

/-- The model with another objective. -/
def withObjective (m : Model α) (o : Objective α) : Model α := { m with objective := o }

variable {m grown : Model α}

/-- A variable that was declared has a new name and its effective bounds, which are valid. -/
theorem of_declare {name : String} {kind : VariableKind} {bounds : Interval α}
    (hok : m.apply (.declare name kind bounds) = .ok grown) :
    m.handleOf? name = none ∧ (kind.effectiveBounds bounds).isValid = true
      ∧ grown = m.withVariable ⟨name, kind, kind.effectiveBounds bounds⟩ := by
  rw [apply, Attempt.map_eq_ok_iff] at hok
  obtain ⟨⟨h, m'⟩, hdeclare, rfl⟩ := hok
  rw [declare] at hdeclare
  split at hdeclare
  · cases hdeclare
  · rename_i hnew
    dsimp only at hdeclare
    split at hdeclare
    · rename_i hvalid
      injection hdeclare with hdeclare
      injection hdeclare with _ hgrown
      exact ⟨by simpa using hnew, hvalid, hgrown.symm⟩
    · cases hdeclare

/-- A constraint that was added has a right-hand side and terms that have passed, and is
stored with the normalized terms and the constant on the other side. -/
theorem of_constrain {name : Option String} {e : Affine α} {relation : Relation} {rhs : α}
    (hok : m.apply (.constrain name e relation rhs) = .ok grown) :
    Number.isNaN rhs = false
      ∧ (∀ t ∈ e.terms, m.owns t.1 = true ∧ Number.isFinite t.2 = true)
      ∧ grown = m.withConstraint
          ⟨name.getD m.nextConstraintName, e.normalizedTerms, relation, rhs - e.constant⟩ := by
  rw [apply, Attempt.map_eq_ok_iff] at hok
  obtain ⟨⟨h, m'⟩, hadd, rfl⟩ := hok
  rw [addConstraint, addNamedConstraint] at hadd
  split at hadd
  · cases hadd
  · rename_i hnumber
    obtain ⟨-, -, hadd⟩ := Attempt.bind_eq_ok_iff.mp hadd
    obtain ⟨terms, hterms, hadd⟩ := Attempt.bind_eq_ok_iff.mp hadd
    injection hadd with hadd
    injection hadd with _ hgrown
    obtain ⟨rfl, hpassed⟩ := of_checkedTerms hterms
    exact ⟨by simpa using hnumber, hpassed, hgrown.symm⟩

/-- An objective that was set has terms that have passed and a finite constant. -/
theorem of_optimize {e : Affine α} {sense : Sense}
    (hok : m.apply (.optimize e sense) = .ok grown) :
    (∀ t ∈ e.terms, m.owns t.1 = true ∧ Number.isFinite t.2 = true)
      ∧ Number.isFinite e.constant = true
      ∧ grown = m.withObjective ⟨sense, e.normalizedTerms, e.constant⟩ := by
  rw [apply, setObjective, Attempt.bind_eq_ok_iff] at hok
  obtain ⟨terms, hterms, hset⟩ := hok
  obtain ⟨rfl, hpassed⟩ := of_checkedTerms hterms
  split at hset
  · rename_i hfinite
    injection hset with hgrown
    exact ⟨hpassed, hfinite, hgrown.symm⟩
  · cases hset

omit [Number α] in
/-- A variable of the smaller model is one of the larger. -/
theorem owns_withVariable {v : Variable α} {h : Handle} (howns : m.owns h = true) :
    (m.withVariable v).owns h = true := by
  rw [owns, Bool.and_eq_true, decide_eq_true_iff] at howns ⊢
  rw [withVariable, List.length_append]
  exact ⟨howns.1, by omega⟩

end Steps

/-! ## The invariant -/

/-- Bounds are valid, terms are of variables of the model, and coefficients finite. -/
structure IsSound (m : Model ExtRat) : Prop where
  bounds : ∀ v ∈ m.vars, v.bounds.isValid = true
  constraints : ∀ c ∈ m.constraints, ∀ t ∈ c.terms,
    m.owns t.1 = true ∧ Number.isFinite t.2 = true
  objective : ∀ t ∈ m.objective.terms, m.owns t.1 = true ∧ Number.isFinite t.2 = true
  constant : Number.isFinite m.objective.constant = true

theorem isSound_empty (id : ModelId) (name : String) : (empty id name : Model ExtRat).IsSound where
  bounds v hv := by cases hv
  constraints c hc := by cases hc
  objective t ht := by cases ht
  constant := by
    show Number.isFinite (0 : ExtRat) = true
    rw [ExtRat.zero_eq, ExtRat.isFinite_fin]

theorem IsSound.apply {m grown : Model ExtRat} {step : BuildStep ExtRat} (h : m.IsSound)
    (hok : m.apply step = .ok grown) : grown.IsSound := by
  cases step with
  | declare name kind bounds =>
    obtain ⟨-, hvalid, rfl⟩ := of_declare hok
    refine ⟨fun v hv => ?_,
      fun c hc t ht => (h.constraints c hc t ht).imp_left owns_withVariable,
      fun t ht => (h.objective t ht).imp_left owns_withVariable, h.constant⟩
    rcases List.mem_append.mp hv with hv | hv
    · exact h.bounds v hv
    · rw [List.mem_singleton.mp hv]
      exact hvalid
  | constrain name e relation rhs =>
    obtain ⟨-, hpassed, rfl⟩ := of_constrain hok
    have hnew := Affine.forall_normalizedTerms (P := fun k => m.owns k = true) hpassed
    refine ⟨h.bounds, fun c hc => ?_, h.objective, h.constant⟩
    rcases List.mem_append.mp hc with hc | hc
    · exact h.constraints c hc
    · rw [List.mem_singleton.mp hc]
      exact hnew
  | optimize e sense =>
    obtain ⟨hpassed, hconstant, rfl⟩ := of_optimize hok
    exact ⟨h.bounds, h.constraints,
      Affine.forall_normalizedTerms (P := fun k => m.owns k = true) hpassed, hconstant⟩

theorem isSound_of_build {id : ModelId} {name : String} {steps : List (BuildStep ExtRat)}
    {m : Model ExtRat} (h : build id name steps = .ok m) : m.IsSound :=
  build_induction h (isSound_empty id name) fun _ _ _ => IsSound.apply

end Model

end Milp
