/-
A model does not depend on its identity.

A model refers to its variables by its own identity, and a new model gets one that no other
has. So two runs of the same calls never make the same model. They make the same up to the
identities: where these are renamed without making two of them one, every step that
succeeds still does, and its result is the renamed one (`apply_renamed`). The one place
where identities are compared is in telling references apart, and that is where it is used
that the renaming is injective.

All references in a model carry its own identity, so in the end it makes no difference what
becomes of the others (`renamed_congr`).
-/
import Milp.Proofs.Model.Accepted

set_option autoImplicit false

namespace Milp

/-! ## Renaming -/

section Renaming

variable {α : Type} (σ : ModelId → ModelId)

def Handle.renamed (h : Handle) : Handle := ⟨σ h.model, h.index⟩

/-- Terms whose references have been renamed. -/
def renamedTerms (terms : List (Handle × α)) : List (Handle × α) :=
  terms.map fun t => (t.1.renamed σ, t.2)

def Affine.renamed (e : Affine α) : Affine α := ⟨renamedTerms σ e.terms, e.constant⟩

def BuildStep.renamed : BuildStep α → BuildStep α
  | .declare name kind bounds => .declare name kind bounds
  | .constrain name e relation rhs => .constrain name (e.renamed σ) relation rhs
  | .optimize e sense => .optimize (e.renamed σ) sense

def Constraint.renamed (c : Constraint α) : Constraint α :=
  { c with terms := renamedTerms σ c.terms }

def Objective.renamed (o : Objective α) : Objective α :=
  { o with terms := renamedTerms σ o.terms }

/-- The model with its identity, and those of all its references, renamed. -/
def Model.renamed (m : Model α) : Model α where
  id := σ m.id
  name := m.name
  vars := m.vars
  positions := m.positions
  constraints := m.constraints.map (Constraint.renamed σ)
  objective := m.objective.renamed σ

end Renaming

variable {α : Type} [Number α] {σ : ModelId → ModelId}

/-! ## Expressions -/

omit [Number α] in
theorem renamedTerms_congr {τ : ModelId → ModelId} {terms : List (Handle × α)}
    (agree : ∀ t ∈ terms, σ t.1.model = τ t.1.model) :
    renamedTerms σ terms = renamedTerms τ terms := by
  refine List.map_congr_left fun t ht => ?_
  rw [Handle.renamed, Handle.renamed, agree t ht]

section Injective

variable (inj : Function.Injective σ)
include inj

theorem Handle.renamed_injective : Function.Injective (Handle.renamed σ) := by
  intro h k heq
  obtain ⟨hmodel, hindex⟩ := Handle.mk.inj heq
  rw [show h = ⟨h.model, h.index⟩ from rfl, inj hmodel, hindex]

/-- References that are different stay so, and no others are merged. -/
theorem mergeTerm_renamed (h : Handle) (c : α) (merged : List (Handle × α)) :
    Affine.mergeTerm (h.renamed σ) c (renamedTerms σ merged)
      = renamedTerms σ (Affine.mergeTerm h c merged) := by
  induction merged with
  | nil => rfl
  | cons t merged ih =>
    show Affine.mergeTerm _ c ((t.1.renamed σ, t.2) :: renamedTerms σ merged) = _
    rw [Affine.mergeTerm, Affine.mergeTerm]
    by_cases heq : t.1 = h
    · rw [if_pos (congrArg _ heq), if_pos heq]
      rfl
    · rw [if_neg fun hsame => heq (Handle.renamed_injective inj hsame), if_neg heq, ih]
      rfl

theorem mergedTerms_renamed (terms : List (Handle × α)) :
    Affine.mergedTerms (renamedTerms σ terms) = renamedTerms σ (Affine.mergedTerms terms) := by
  induction terms using List.reverseRecOn with
  | nil => rfl
  | append_singleton terms t ih =>
    rw [renamedTerms, List.map_append, List.map_singleton, Affine.mergedTerms_concat,
      Affine.mergedTerms_concat, ← mergeTerm_renamed inj, ← ih]
    rfl

theorem normalizedTerms_renamed (e : Affine α) :
    (e.renamed σ).normalizedTerms = renamedTerms σ e.normalizedTerms := by
  rw [Affine.normalizedTerms, Affine.renamed, mergedTerms_renamed inj, Affine.normalizedTerms,
    renamedTerms, List.filter_map]
  rfl

end Injective

/-! ## Models -/

namespace Model

variable {m grown : Model α} {step : BuildStep α}

omit [Number α] in
theorem owns_renamed {h : Handle} (howns : m.owns h = true) :
    (m.renamed σ).owns (h.renamed σ) = true := by
  rw [owns, Bool.and_eq_true, beq_iff_eq] at howns
  rw [owns, Bool.and_eq_true, beq_iff_eq]
  exact ⟨congrArg σ howns.1, howns.2⟩

theorem takes_renamed {e : Affine α} (takes : m.Takes e) :
    (m.renamed σ).Takes (e.renamed σ) := by
  intro t ht
  obtain ⟨s, hs, rfl⟩ := List.mem_map.mp ht
  obtain ⟨howns, hfinite⟩ := takes s hs
  exact ⟨owns_renamed howns, hfinite⟩

omit [Number α] in
theorem withConstraint_renamed (c : Constraint α) :
    (m.withConstraint c).renamed σ = (m.renamed σ).withConstraint (c.renamed σ) := by
  rw [withConstraint, withConstraint, renamed, List.map_append]
  rfl

/-- **A step that succeeds** does so under every other identity, with the same result. -/
theorem apply_renamed (inj : Function.Injective σ) (h : m.apply step = .ok grown) :
    (m.renamed σ).apply (step.renamed σ) = .ok (grown.renamed σ) := by
  cases step with
  | declare name kind bounds =>
    obtain ⟨hnew, hvalid, rfl⟩ := of_declare h
    have hnew' : (m.renamed σ).handleOf? name = none := by
      rw [handleOf?, Option.map_eq_none_iff] at hnew ⊢
      exact hnew
    rw [BuildStep.renamed, apply_declare hnew', if_pos hvalid]
    rfl
  | constrain name e relation rhs =>
    obtain ⟨hnumber, htakes, rfl⟩ := of_constrain h
    -- a constraint without a name is named for its position, which is the same
    have hname : (m.renamed σ).nextConstraintName = m.nextConstraintName := by
      rw [nextConstraintName, nextConstraintName, renamed, List.length_map]
    have happly : (m.renamed σ).apply
        (.constrain (some (name.getD (m.renamed σ).nextConstraintName)) (e.renamed σ) relation rhs)
          = _ := apply_constrain hnumber (takes_renamed htakes)
    rw [normalizedTerms_renamed inj] at happly
    rw [withConstraint_renamed, ← hname]
    exact happly
  | optimize e sense =>
    obtain ⟨htakes, hfinite, rfl⟩ := of_optimize h
    have happly : (m.renamed σ).apply (.optimize (e.renamed σ) sense) = _ :=
      apply_optimize hfinite (takes_renamed htakes)
    rw [normalizedTerms_renamed inj] at happly
    exact happly

theorem applyAll_renamed (inj : Function.Injective σ) {steps : List (BuildStep α)}
    (h : m.applyAll steps = .ok grown) :
    (m.renamed σ).applyAll (steps.map (BuildStep.renamed σ)) = .ok (grown.renamed σ) := by
  induction steps generalizing m with
  | nil =>
    obtain rfl : m = grown := Except.ok.inj h
    rfl
  | cons step steps ih =>
    obtain ⟨next, hnext, hsteps⟩ := applyAll_cons_eq_ok_iff.mp h
    rw [List.map_cons]
    exact applyAll_cons_eq_ok_iff.mpr ⟨next.renamed σ, apply_renamed inj hnext, ih hsteps⟩

/-- **A model that is built** under one identity is built under every other. -/
theorem build_renamed (inj : Function.Injective σ) {id : ModelId} {name : String}
    {steps : List (BuildStep α)} (h : build id name steps = .ok m) :
    build (σ id) name (steps.map (BuildStep.renamed σ)) = .ok (m.renamed σ) :=
  applyAll_renamed inj h

theorem id_of_build {id : ModelId} {name : String} {steps : List (BuildStep α)}
    (h : build id name steps = .ok m) : m.id = id := by
  exact build_induction (P := fun m => m.id = id) h rfl fun _ _ _ hm hok =>
    (id_name_of_apply hok).1.trans hm

omit [Number α] in
/-- All references of a model are its own, so only what becomes of its identity counts. -/
theorem IsWellFormed.renamed_congr {τ : ModelId → ModelId} (h : m.IsWellFormed)
    (agree : σ m.id = τ m.id) : m.renamed σ = m.renamed τ := by
  have hterms : ∀ terms : List (Handle × α), (∀ t ∈ terms, m.owns t.1 = true) →
      renamedTerms σ terms = renamedTerms τ terms := by
    intro terms howns
    refine renamedTerms_congr fun t ht => ?_
    have hown := howns t ht
    rw [owns, Bool.and_eq_true, beq_iff_eq] at hown
    rw [hown.1, agree]
  have hconstraints : m.constraints.map (Constraint.renamed σ)
      = m.constraints.map (Constraint.renamed τ) := by
    refine List.map_congr_left fun c hc => ?_
    rw [Constraint.renamed, Constraint.renamed, hterms c.terms (h.constraints c hc)]
  rw [renamed, renamed, agree, hconstraints, Objective.renamed, Objective.renamed,
    hterms m.objective.terms h.objective]

/-- Of a model that was built, only what becomes of the identity it was given counts. -/
theorem renamed_eq_of_build {τ : ModelId → ModelId} {id : ModelId} {name : String}
    {steps : List (BuildStep α)} (h : build id name steps = .ok m) (agree : σ id = τ id) :
    m.renamed σ = m.renamed τ := by
  have hwell : m.IsWellFormed :=
    build_induction h (isWellFormed_empty id name) fun _ _ _ => IsWellFormed.apply
  refine hwell.renamed_congr ?_
  rw [id_of_build h, agree]

end Model

end Milp
