/-
What holds of a model after any sequence of calls.

A caller may try anything: names that are taken, bounds that are empty or no numbers,
terms of other models. A call that fails changes nothing (`Model.attempt`), so the model
is the one that the accepted calls alone would have built (`applyAll_accepted`), and what
is stored can be read off those (`Milp.Proofs.Model.History`).

What the accepted calls cannot say by themselves is an invariant, proved call by call
(`IsWellFormed.apply`): names are distinct, the index agrees with the variables, and every
term belongs to the model. All of it holds over every carrier. Only that a binary variable
stays between zero and one needs the laws of order.
-/
import Milp.Proofs.Affine.Normalized
import Milp.Proofs.Model.History
import Milp.Proofs.Number.Lawful

set_option autoImplicit false

namespace Milp

open Number (exact Lawful)

/-! ## The index -/

/-- With distinct keys, what is looked up is what is there. -/
theorem lookup_eq_some_iff_mem {β : Type} {entries : List (String × β)}
    (distinct : (entries.map Prod.fst).Nodup) {key : String} {b : β} :
    entries.lookup key = some b ↔ (key, b) ∈ entries := by
  induction entries with
  | nil => simp
  | cons entry entries ih =>
    rw [List.map_cons, List.nodup_cons] at distinct
    obtain ⟨hnew, hrest⟩ := distinct
    by_cases hkey : key = entry.1
    · have hnot : (key, b) ∉ entries := by
        intro hmem
        have := List.mem_map_of_mem (f := Prod.fst) hmem
        rw [hkey] at this
        exact hnew this
      have hthere : (key == entry.1) = true := by simpa using hkey
      rw [List.lookup_cons, hthere, List.mem_cons]
      constructor
      · intro h
        rw [hkey, ← Option.some.inj h]
        exact .inl rfl
      · intro h
        rw [← h.resolve_right hnot]
    · have hother : (key == entry.1) = false := by simpa using hkey
      have hne : ¬ (key, b) = entry := fun h => hkey (by rw [← h])
      rw [List.lookup_cons, hother, ih hrest, List.mem_cons]
      simp [hne]

namespace Model

variable {α : Type} [Number α]

/-! ## The invariant -/

/-- Names are distinct and found at their positions, and every stored term belongs to the
model. -/
structure IsWellFormed (m : Model α) : Prop where
  names : (m.vars.map (·.name)).Nodup
  positions : m.positions = m.vars.mapIdx fun index v => (v.name, index)
  constraints : ∀ c ∈ m.constraints, ∀ t ∈ c.terms, m.owns t.1 = true
  objective : ∀ t ∈ m.objective.terms, m.owns t.1 = true

theorem isWellFormed_empty (id : ModelId) (name : String) :
    (empty id name : Model α).IsWellFormed where
  names := List.nodup_nil
  positions := rfl
  constraints c hc := by cases hc
  objective t ht := by cases ht

section Invariant

variable {m grown : Model α} {step : BuildStep α}

omit [Number α] in
/-- **A name is found exactly where its variable is.** -/
theorem IsWellFormed.handleOf?_eq_some_iff (h : m.IsWellFormed) {name : String} {k : Handle} :
    m.handleOf? name = some k
      ↔ k.model = m.id ∧ ∃ v, m.vars[k.index]? = some v ∧ v.name = name := by
  have hkeys : (m.positions.map Prod.fst).Nodup := by
    have heq : m.positions.map Prod.fst = m.vars.map (·.name) := by
      rw [h.positions]
      exact List.ext_getElem (by simp) fun i _ _ => by simp
    rw [heq]
    exact h.names
  rw [handleOf?, Option.map_eq_some_iff]
  constructor
  · rintro ⟨index, hlookup, rfl⟩
    rw [lookup_eq_some_iff_mem hkeys, h.positions, List.mem_mapIdx] at hlookup
    obtain ⟨i, hi, heq⟩ := hlookup
    obtain ⟨hname, rfl⟩ := Prod.mk.inj heq
    exact ⟨rfl, m.vars[i], List.getElem?_eq_getElem hi, hname⟩
  · rintro ⟨hid, v, hv, hname⟩
    obtain ⟨hi, hget⟩ := List.getElem?_eq_some_iff.mp hv
    refine ⟨k.index, ?_, by rw [← hid]⟩
    rw [lookup_eq_some_iff_mem hkeys, h.positions, List.mem_mapIdx]
    exact ⟨k.index, hi, by rw [hget, hname]⟩

omit [Number α] in
theorem IsWellFormed.not_mem_names (h : m.IsWellFormed) {name : String}
    (unknown : m.handleOf? name = none) : name ∉ m.vars.map (·.name) := by
  intro hmem
  obtain ⟨v, hv, hname⟩ := List.mem_map.mp hmem
  obtain ⟨i, hi, hget⟩ := List.getElem_of_mem hv
  have hfound : m.handleOf? name = some ⟨m.id, i⟩ :=
    h.handleOf?_eq_some_iff.mpr ⟨rfl, v, by rw [List.getElem?_eq_getElem hi, hget], hname⟩
  rw [unknown] at hfound
  cases hfound

/-- **Every accepted call keeps a model well formed.** -/
theorem IsWellFormed.apply (h : m.IsWellFormed) (hok : m.apply step = .ok grown) :
    grown.IsWellFormed := by
  cases step with
  | declare name kind bounds =>
    obtain ⟨hnew, -, rfl⟩ := of_declare hok
    refine ⟨?_, ?_, fun c hc t ht => owns_withVariable (h.constraints c hc t ht),
      fun t ht => owns_withVariable (h.objective t ht)⟩
    · rw [withVariable, List.map_append, List.map_singleton, ← List.concat_eq_append]
      exact List.Nodup.concat (h.not_mem_names hnew) h.names
    · rw [withVariable, List.mapIdx_concat, ← h.positions]
  | constrain name e relation rhs =>
    obtain ⟨-, hpassed, rfl⟩ := of_constrain hok
    refine ⟨h.names, h.positions, fun c hc => ?_, h.objective⟩
    rcases List.mem_append.mp hc with hc | hc
    · exact h.constraints c hc
    · rw [List.mem_singleton.mp hc]
      exact Affine.forall_handles_normalizedTerms (P := fun k => m.owns k = true)
        fun t ht => (hpassed t ht).1
  | optimize e sense =>
    obtain ⟨hpassed, -, rfl⟩ := of_optimize hok
    exact ⟨h.names, h.positions, h.constraints,
      Affine.forall_handles_normalizedTerms (P := fun k => m.owns k = true)
        fun t ht => (hpassed t ht).1⟩

omit [Number α] in
/-- Every variable is found under its name. -/
theorem IsWellFormed.map_handleOf? (h : m.IsWellFormed) :
    (m.vars.map fun v => m.handleOf? v.name) = m.handles.map some := by
  refine List.ext_getElem (by simp [handles]) fun i hi _ => ?_
  rw [List.length_map] at hi
  simp only [handles, List.getElem_map, List.getElem_range]
  exact h.handleOf?_eq_some_iff.mpr ⟨rfl, m.vars[i], List.getElem?_eq_getElem hi, rfl⟩

end Invariant

/-! ## Calls that may fail -/

/-- The calls among several that are accepted. -/
def accepted (m : Model α) : List (BuildStep α) → List (BuildStep α)
  | [] => []
  | step :: steps =>
    match m.apply step with
    | .ok grown => step :: grown.accepted steps
    | .error _ => m.accepted steps

/-- A call that fails leaves the model as it was. -/
theorem attempt_eq_self {m : Model α} {step : BuildStep α} {fault : Fault α}
    (h : m.apply step = .error fault) : m.attempt step = m := by
  rw [attempt, h]

theorem attempt_eq {m grown : Model α} {step : BuildStep α} (h : m.apply step = .ok grown) :
    m.attempt step = grown := by
  rw [attempt, h]

theorem attemptAll_cons (m : Model α) (step : BuildStep α) (steps : List (BuildStep α)) :
    m.attemptAll (step :: steps) = (m.attempt step).attemptAll steps :=
  rfl

theorem attemptAll_append (m : Model α) (steps more : List (BuildStep α)) :
    m.attemptAll (steps ++ more) = (m.attemptAll steps).attemptAll more :=
  List.foldl_append

/-- **Only the accepted calls count.** -/
theorem applyAll_accepted (m : Model α) (steps : List (BuildStep α)) :
    m.applyAll (m.accepted steps) = .ok (m.attemptAll steps) := by
  induction steps generalizing m with
  | nil => rfl
  | cons step steps ih =>
    rw [attemptAll_cons, accepted]
    cases hstep : m.apply step with
    | ok grown =>
      rw [attempt_eq hstep]
      exact applyAll_cons_eq_ok_iff.mpr ⟨grown, hstep, ih grown⟩
    | error fault =>
      rw [attempt_eq_self hstep]
      exact ih m

theorem IsWellFormed.attemptAll {m : Model α} (h : m.IsWellFormed)
    (steps : List (BuildStep α)) : (m.attemptAll steps).IsWellFormed :=
  Attempt.foldlM_preserves (fun _ _ _ => IsWellFormed.apply) h (m.applyAll_accepted steps)

/-- Nothing that is there is changed or moved. -/
theorem prefix_attemptAll (m : Model α) (steps : List (BuildStep α)) :
    m.vars <+: (m.attemptAll steps).vars
      ∧ m.constraints <+: (m.attemptAll steps).constraints := by
  obtain ⟨hvars, hconstraints, -⟩ := applyAll_history (m.applyAll_accepted steps)
  rw [hvars, hconstraints]
  exact ⟨List.prefix_append _ _, List.prefix_append _ _⟩

/-! ## What is stored -/

/-- The bounds of a binary variable are cut down to those between zero and one. -/
theorem effectiveBounds_binary [Lawful α] (one : Number.isNaN (1 : α) = false) (b : Interval α) :
    Number.le 0 (VariableKind.binary.effectiveBounds b).lower = true
      ∧ Number.le (VariableKind.binary.effectiveBounds b).upper 1 = true :=
  ⟨Number.le_max_right_of_lawful b.lower Number.isNaN_zero,
    Number.min_le_right_of_lawful b.upper one⟩

/-- What a model may store of an expression: terms of its own variables, each at most once
and in the order in which the expression first names them, with coefficients that are not
zero. -/
structure Stores (m : Model α) (e : Affine α) (terms : List (Handle × α)) : Prop where
  owned : ∀ t ∈ terms, m.owns t.1 = true
  distinct : (terms.map Prod.fst).Nodup
  order : (terms.map Prod.fst).Sublist (e.terms.map Prod.fst).eraseDups
  nonzero : ∀ t ∈ terms, (t.2 == 0) = false

theorem stores_normalizedTerms {m : Model α} {e : Affine α}
    (owned : ∀ t ∈ e.normalizedTerms, m.owns t.1 = true) : m.Stores e e.normalizedTerms :=
  ⟨owned, Affine.nodup_handles_normalizedTerms e, Affine.sublist_handles_normalizedTerms e,
    fun _ => Affine.ne_zero_of_mem_normalizedTerms e⟩

/-- **A model in order**, after the calls that were accepted. Looking up a name finds
exactly the variable that has it, and the handles are those of the names; bounds are
valid; and what is stored of the expressions is in order. -/
structure InOrder (m : Model α) (made : List (BuildStep α)) : Prop where
  names : (m.vars.map (·.name)).Nodup
  index : m.positions = m.vars.mapIdx fun index v => (v.name, index)
  lookup : ∀ name k, m.handleOf? name = some k
    ↔ k.model = m.id ∧ ∃ v, m.vars[k.index]? = some v ∧ v.name = name
  inverse : (m.vars.map fun v => m.handleOf? v.name) = m.handles.map some
  bounds : ∀ v ∈ m.vars, v.bounds.isValid = true
  constraints : List.Forall₂ (fun c (q : Posed α) => m.Stores q.expression c.terms)
    m.constraints (posed made)
  objective : m.Stores (lastObjective made).1 m.objective.terms

theorem inOrder_attemptAll (id : ModelId) (name : String) (steps : List (BuildStep α)) :
    ((empty id name).attemptAll steps).InOrder ((empty id name).accepted steps) := by
  set m := (empty id name).attemptAll steps with hm
  have built : build id name ((empty id name).accepted steps) = .ok m :=
    applyAll_accepted _ steps
  obtain ⟨-, hconstraints, hobjective⟩ := build_history built
  have hwell : m.IsWellFormed := (isWellFormed_empty id name).attemptAll steps
  refine ⟨hwell.names, hwell.positions, fun _ _ => hwell.handleOf?_eq_some_iff,
    hwell.map_handleOf?, isValid_of_build built, ?_, ?_⟩
  · rw [List.forall₂_iff_get]
    refine ⟨by simp [hconstraints], fun i hi hq => ?_⟩
    have hget : m.constraints[i] = ((posed ((empty id name).accepted steps))[i]).stored i := by
      simp [hconstraints]
    have howned := hwell.constraints _ (List.getElem_mem hi)
    rw [hget] at howned
    simp only [List.get_eq_getElem]
    rw [hget]
    exact stores_normalizedTerms howned
  · have howned := hwell.objective
    rw [hobjective] at howned ⊢
    exact stores_normalizedTerms howned

theorem binary_within_attemptAll [Lawful α] (one : Number.isNaN (1 : α) = false) (id : ModelId)
    (name : String) (steps : List (BuildStep α)) :
    ∀ v ∈ ((empty id name).attemptAll steps).vars, v.kind = .binary →
      Number.le 0 v.bounds.lower = true ∧ Number.le v.bounds.upper 1 = true := by
  intro v hv hkind
  have built : build id name ((empty id name).accepted steps)
      = .ok ((empty id name).attemptAll steps) := applyAll_accepted _ steps
  rw [(build_history built).1] at hv
  obtain ⟨name, kind, bounds, -, rfl⟩ := mem_declared hv
  obtain rfl : kind = .binary := hkind
  exact effectiveBounds_binary one bounds

/-- **A model is in order after every call**, whatever calls were made of it. What is there
stays where it is, and a call that fails leaves everything as it was. -/
theorem models_stay_inOrder (id : ModelId) (name : String) (steps : List (BuildStep α)) :
    ((empty id name).attemptAll steps).InOrder ((empty id name).accepted steps)
      ∧ (∀ [Lawful α], Number.isNaN (1 : α) = false →
          ∀ v ∈ ((empty id name).attemptAll steps).vars, v.kind = .binary →
            Number.le 0 v.bounds.lower = true ∧ Number.le v.bounds.upper 1 = true)
      ∧ (∀ more, ((empty id name).attemptAll steps).vars
            <+: ((empty id name).attemptAll (steps ++ more)).vars
          ∧ ((empty id name).attemptAll steps).constraints
            <+: ((empty id name).attemptAll (steps ++ more)).constraints)
      ∧ ∀ step fault, ((empty id name).attemptAll steps).apply step = .error fault →
          (empty id name).attemptAll (steps ++ [step]) = (empty id name).attemptAll steps := by
  refine ⟨inOrder_attemptAll id name steps, fun one => binary_within_attemptAll one id name steps,
    fun more => ?_, fun step fault h => ?_⟩
  · rw [attemptAll_append]
    exact prefix_attemptAll _ more
  · rw [attemptAll_append]
    exact attempt_eq_self h

/-- Calls of which several fail: a name that is taken, bounds at an infinity, a variable of
another model, a right-hand side that is not a number. -/
def unrulySteps : List (BuildStep ExtRat) :=
  [.declare "x" .integer ⟨.fin 0, .fin 10⟩,
    .declare "x" .continuous .free,
    .declare "z" .continuous ⟨.posInf, .posInf⟩,
    .declare "y" .binary ⟨.nan, .fin 5⟩,
    .constrain none (.ofHandle ⟨⟨2⟩, 0⟩) .atMost (.fin 1),
    .constrain none (.ofHandle ⟨⟨1⟩, 0⟩) .atMost .nan,
    .constrain none (.ofTerms [(⟨⟨1⟩, 1⟩, .fin 1), (⟨⟨1⟩, 0⟩, .fin 1), (⟨⟨1⟩, 1⟩, .fin (-1)),
      (⟨⟨1⟩, 0⟩, .fin 1)]) .atLeast (.fin 4)]

/-- What they leave behind. -/
def unruly : Model ExtRat where
  id := ⟨1⟩
  name := ""
  vars := [⟨"x", .integer, ⟨.fin 0, .fin 10⟩⟩, ⟨"y", .binary, ⟨.fin 0, .fin 1⟩⟩]
  constraints := [⟨"c0", [(⟨⟨1⟩, 0⟩, .fin 2)], .atLeast, .fin 4⟩]
  objective := .initial

theorem attemptAll_unrulySteps : (empty ⟨1⟩ "").attemptAll unrulySteps = unruly := by
  with_unfolding_all rfl

/-- Three of the seven calls count, and the model they make is in order. -/
theorem models_stay_inOrder_unruly :
    ∃ made, made.length = 3 ∧ unruly.InOrder made
      ∧ ∀ v ∈ unruly.vars, v.kind = .binary →
          Number.le 0 v.bounds.lower = true ∧ Number.le v.bounds.upper 1 = true := by
  obtain ⟨hinOrder, hbinary, -, -⟩ := models_stay_inOrder ⟨1⟩ "" unrulySteps
  rw [attemptAll_unrulySteps] at hinOrder hbinary
  exact ⟨(empty ⟨1⟩ "").accepted unrulySteps, by with_unfolding_all rfl, hinOrder,
    hbinary (by simp)⟩

end Model

end Milp
