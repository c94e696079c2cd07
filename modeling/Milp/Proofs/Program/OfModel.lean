/-
A model and its program.

A program that comes from a model has rational data (`isRational_of_ofModel`): the checks
made when the model was built see to it, but for the right-hand sides, which may be
infinite. And it says the same as the model. At every point of rationals a constraint and
its row have the same left-hand side, although the row leaves out terms with coefficient
zero (`lhs_eq_lhsOn`), and both have the same objective, although the program collects
its coefficients by column (`evaluate_eq_objectiveOn`).
-/
import Milp.Proofs.Model.Building
import Milp.Proofs.Number.Sums
import Milp.Proofs.Program.Points

set_option autoImplicit false

namespace Milp

/-! ## Support -/

theorem VariableKind.isIntegral_iff (k : VariableKind) :
    k.isIntegral = true ↔ k = .integer ∨ k = .binary := by
  cases k <;> decide

namespace Capabilities

/-- Something is beyond a solver's means: a relation, or a kind of variables. -/
def Exceeded (c : Capabilities) (relations : List Relation) (kinds : List VariableKind) : Prop :=
  (∃ r ∈ relations, r ∉ c.relations)
    ∨ (c.integerDomains = false ∧ ∃ k ∈ kinds, k = .integer ∨ k = .binary)

section Support

variable {α : Type} {c : Capabilities} {m : Model α}

theorem checkSupport_of_exceeded (backend : String)
    (h : c.Exceeded (m.constraints.map (·.relation)) (m.vars.map (·.kind))) :
    ∃ construct, c.checkSupport backend m = .error (.unsupportedConstruct backend construct) := by
  rw [checkSupport]
  cases hvar : m.vars.find? fun v => !c.supportsVariable v with
  | some v => exact ⟨_, rfl⟩
  | none =>
    cases hrel : m.constraints.find? fun k => !c.supportsRelation k.relation with
    | some k => exact ⟨_, rfl⟩
    | none =>
      -- then every relation and every kind is supported after all
      rcases h with ⟨r, hr, hnot⟩ | ⟨hdomains, kind, hkind, hintegral⟩
      · obtain ⟨k, hk, rfl⟩ := List.mem_map.mp hr
        have := List.find?_eq_none.mp hrel k hk
        simp [supportsRelation, hnot] at this
      · obtain ⟨v, hv, rfl⟩ := List.mem_map.mp hkind
        have := List.find?_eq_none.mp hvar v hv
        rw [← VariableKind.isIntegral_iff] at hintegral
        simp [supportsVariable, hdomains, Variable.isIntegral, hintegral] at this

theorem checkSupport_of_not_exceeded (backend : String)
    (h : ¬ c.Exceeded (m.constraints.map (·.relation)) (m.vars.map (·.kind))) :
    c.checkSupport backend m = .ok () := by
  have hvar : (m.vars.find? fun v => !c.supportsVariable v) = none := by
    rw [List.find?_eq_none]
    intro v hv hnot
    simp only [supportsVariable, Bool.not_or, Bool.and_eq_true, Bool.not_not,
      Bool.not_eq_true'] at hnot
    apply h
    exact .inr ⟨hnot.1, v.kind, List.mem_map_of_mem hv,
      (VariableKind.isIntegral_iff v.kind).mp hnot.2⟩
  have hrel : (m.constraints.find? fun k => !c.supportsRelation k.relation) = none := by
    rw [List.find?_eq_none]
    intro k hk hnot
    apply h
    exact .inl ⟨k.relation, List.mem_map_of_mem hk, by simpa [supportsRelation] using hnot⟩
  rw [checkSupport, hvar, hrel]

/-- **A model is taken** exactly if nothing in it is beyond the solver's means. -/
theorem checkSupport_eq_ok_iff (backend : String) :
    c.checkSupport backend m = .ok ()
      ↔ ¬ c.Exceeded (m.constraints.map (·.relation)) (m.vars.map (·.kind)) := by
  refine ⟨fun hok h => ?_, checkSupport_of_not_exceeded backend⟩
  obtain ⟨construct, herror⟩ := checkSupport_of_exceeded backend h
  rw [hok] at herror
  simp at herror

/-- With all kinds of variables and the linear relations, a model is refused exactly for a
relation that is not linear. -/
theorem checkSupport_mixedInteger_iff (backend : String) (m : Model α) :
    mixedInteger.checkSupport backend m = .ok ()
      ↔ ∀ c ∈ m.constraints, c.relation ≠ .differs := by
  have hrelation : ∀ r : Relation, r ∉ mixedInteger.relations ↔ r = .differs := by
    intro r
    cases r <;> decide
  have hdomains : ¬ mixedInteger.integerDomains = false := by decide
  simp [checkSupport_eq_ok_iff, Exceeded, hrelation, hdomains]

end Support

end Capabilities

namespace Program

theorem ofModel_eq_ok_iff {α : Type} [Number α] {m : Model α} {backend : String}
    {capabilities : Capabilities} {p : Program α} :
    ofModel m backend capabilities = .ok p
      ↔ capabilities.checkSupport backend m = .ok ()
        ∧ p = ⟨columnsOf m, m.constraints.map rowOf, m.objective.sense, m.objective.constant⟩ := by
  rw [ofModel, Attempt.map_eq_ok_iff]
  constructor
  · rintro ⟨⟨⟩, hok, rfl⟩
    exact ⟨hok, rfl⟩
  · rintro ⟨hok, rfl⟩
    exact ⟨(), hok, rfl⟩

/-! ## Columns -/

theorem foldl_add_fin (terms : List (Handle × ExtRat))
    (h : ∀ t ∈ terms, Number.isFinite t.2 = true) (start : ℚ) :
    terms.foldl (fun total (_, c) => total + c) (ExtRat.fin start)
      = .fin (start + (terms.map fun t => t.2.value).sum) := by
  induction terms generalizing start with
  | nil => simp
  | cons t terms ih =>
    obtain ⟨ht, hterms⟩ := List.forall_mem_cons.mp h
    have hadd : ExtRat.fin start + t.2 = .fin (start + t.2.value) := by
      nth_rewrite 1 [ExtRat.eq_fin_of_isFinite ht]
      rfl
    rw [List.foldl_cons, List.map_cons, List.sum_cons, ← add_assoc, ← ih hterms, ← hadd]

theorem collectCoefficient_eq {terms : List (Handle × ExtRat)}
    (h : ∀ t ∈ terms, Number.isFinite t.2 = true) (column : Nat) :
    collectCoefficient terms column
      = .fin ((terms.filter fun t => t.1.index == column).map fun t => t.2.value).sum := by
  rw [collectCoefficient, ExtRat.zero_eq]
  have := foldl_add_fin (terms.filter fun t => t.1.index == column)
    (fun t ht => h t (List.mem_of_mem_filter ht)) 0
  rw [zero_add] at this
  exact this

/-- Collecting coefficients by column does not change their sum over a point. -/
theorem sum_collected (terms : List (Handle × ExtRat)) (width : Nat) (x : Nat → ℚ)
    (h : ∀ t ∈ terms, t.1.index < width) :
    ∑ j ∈ Finset.range width,
        ((terms.filter fun t => t.1.index == j).map fun t => t.2.value).sum * x j
      = (terms.map fun t => t.2.value * x t.1.index).sum := by
  induction terms with
  | nil => simp
  | cons t terms ih =>
    obtain ⟨ht, hterms⟩ := List.forall_mem_cons.mp h
    -- a term adds its coefficient to one column, and nothing to the others
    have hcons : ∀ j, (((t :: terms).filter fun t => t.1.index == j).map fun t => t.2.value).sum
        = (if t.1.index = j then t.2.value else 0)
          + ((terms.filter fun t => t.1.index == j).map fun t => t.2.value).sum := by
      intro j
      by_cases hj : t.1.index = j
      · rw [List.filter_cons_of_pos (by simpa using hj), if_pos hj, List.map_cons, List.sum_cons]
      · rw [List.filter_cons_of_neg (by simpa using hj), if_neg hj, zero_add]
    rw [List.map_cons, List.sum_cons, ← ih hterms]
    simp only [hcons, add_mul, Finset.sum_add_distrib, ite_mul, zero_mul]
    rw [Finset.sum_ite_eq, if_pos (Finset.mem_range.mpr ht)]

/-! ## Rows -/

/-- Terms by column. -/
def columnTerms (terms : List (Handle × ExtRat)) : List (Nat × ExtRat) :=
  terms.map fun t => (t.1.index, t.2)

theorem linearOn_columnTerms (terms : List (Handle × ExtRat)) (x : List ℚ) :
    linearOn (columnTerms terms) x = ExtRat.sumOn terms fun h => x.getD h.index 0 := by
  rw [linearOn, columnTerms, List.map_map]
  rfl

theorem columnValue_map_fin (x : List ℚ) :
    columnValue (x.map .fin) = fun h => ExtRat.fin (x.getD h.index 0) :=
  funext fun h => ExtRat.valueAt_map_fin x h.index

theorem weightedSum_columnValue {terms : List (Handle × ExtRat)}
    (h : ∀ t ∈ terms, Number.isFinite t.2 = true) (x : List ℚ) :
    Number.weightedSum terms (columnValue (x.map .fin))
      = .fin (linearOn (columnTerms terms) x) := by
  rw [columnValue_map_fin, linearOn_columnTerms, ExtRat.weightedSum_fin h]

/-- Terms with coefficient zero may be left out. -/
theorem linearOn_filter {terms : List (Handle × ExtRat)}
    (h : ∀ t ∈ terms, Number.isFinite t.2 = true) (x : List ℚ) :
    linearOn (columnTerms (terms.filter fun t => !(t.2 == 0))) x
      = linearOn (columnTerms terms) x := by
  rw [linearOn_columnTerms, linearOn_columnTerms, ExtRat.sumOn_filter h]

/-- A constraint and its row have the same left-hand side. -/
theorem lhs_eq_lhsOn {c : Constraint ExtRat} (h : ∀ t ∈ c.terms, Number.isFinite t.2 = true)
    (x : List ℚ) : c.lhs (x.map .fin) = .fin ((rowOf c).lhsOn x) := by
  rw [Constraint.lhs, weightedSum_columnValue h, ← linearOn_filter h]
  rfl

/-! ## Programs -/

section Program

variable {m : Model ExtRat} {backend : String} {capabilities : Capabilities}
  {p : Program ExtRat}

theorem mem_columnsOf {c : Column ExtRat} (hc : c ∈ columnsOf m) :
    ∃ i v, m.vars[i]? = some v
      ∧ c = ⟨v.name, v.bounds, v.isIntegral, collectCoefficient m.objective.terms i⟩ := by
  rw [columnsOf, List.mem_mapIdx] at hc
  obtain ⟨i, hi, rfl⟩ := hc
  exact ⟨i, m.vars[i], List.getElem?_eq_getElem hi, rfl⟩

@[simp] theorem length_columnsOf : (columnsOf m).length = m.vars.length :=
  List.length_mapIdx

theorem objective_columnsOf (sound : m.IsSound) :
    ∀ c ∈ columnsOf m, c.objective = .fin c.objective.value := by
  intro c hc
  obtain ⟨i, v, -, rfl⟩ := mem_columnsOf hc
  show collectCoefficient m.objective.terms i
    = .fin (collectCoefficient m.objective.terms i).value
  rw [collectCoefficient_eq fun t ht => (sound.objective t ht).2, ExtRat.value_fin]

/-- **A program of a built model has rational data**, if its right-hand sides are finite. -/
theorem isRational_of_ofModel (sound : m.IsSound)
    (lowered : ofModel m backend .mixedInteger = .ok p)
    (finite : ∀ r ∈ p.rows, Number.isFinite r.rhs = true) : p.IsRational := by
  obtain ⟨hok, rfl⟩ := ofModel_eq_ok_iff.mp lowered
  have hlinear := (Capabilities.checkSupport_mixedInteger_iff backend m).mp hok
  refine ⟨fun c hc => ?_, objective_columnsOf sound, ExtRat.eq_fin_of_isFinite sound.constant,
    fun r hr => ?_⟩
  · obtain ⟨i, v, hv, rfl⟩ := mem_columnsOf hc
    exact Interval.isOutward_of_isValid (sound.bounds v (List.mem_of_getElem? hv))
  · obtain ⟨c, hc, rfl⟩ := List.mem_map.mp hr
    refine ⟨fun t ht => ?_, ExtRat.eq_fin_of_isFinite (finite _ hr), hlinear c hc⟩
    obtain ⟨s, hs, rfl⟩ := List.mem_map.mp ht
    obtain ⟨howns, hfinite⟩ := sound.constraints c hc s (List.mem_of_mem_filter hs)
    rw [Model.owns, Bool.and_eq_true, decide_eq_true_iff] at howns
    rw [length_columnsOf]
    exact ⟨howns.2, ExtRat.eq_fin_of_isFinite hfinite⟩

/-- The model and its program have the same objective. -/
theorem evaluate_eq_objectiveOn (sound : m.IsSound)
    (lowered : ofModel m backend capabilities = .ok p) {x : List ℚ}
    (len : x.length = m.vars.length) :
    m.objective.evaluate (x.map .fin) = .fin (p.objectiveOn x) := by
  obtain ⟨-, rfl⟩ := ofModel_eq_ok_iff.mp lowered
  have hobjective : ∀ t ∈ m.objective.terms, Number.isFinite t.2 = true :=
    fun t ht => (sound.objective t ht).2
  have hwidth : ∀ t ∈ m.objective.terms, t.1.index < m.vars.length := by
    intro t ht
    have := (sound.objective t ht).1
    rw [Model.owns, Bool.and_eq_true, decide_eq_true_iff] at this
    exact this.2
  -- the objective of the program runs over the columns, that of the model over the terms
  have hzip : List.zipWith (fun (c : Column ExtRat) v => c.objective.value * v) (columnsOf m) x
      = (List.range m.vars.length).map fun j =>
          ((m.objective.terms.filter fun t => t.1.index == j).map fun t => t.2.value).sum
            * x.getD j 0 := by
    refine List.ext_getElem (by simp [len]) fun j hj _ => ?_
    have hlt : j < x.length := by
      rw [List.length_zipWith] at hj
      omega
    rw [List.getElem_zipWith, List.getElem_map, List.getElem_range,
      List.getD_eq_getElem _ _ hlt]
    simp only [columnsOf, List.getElem_mapIdx]
    rw [collectCoefficient_eq hobjective, ExtRat.value_fin]
  rw [Objective.evaluate, weightedSum_columnValue hobjective,
    ExtRat.eq_fin_of_isFinite sound.constant, ExtRat.fin_add, objectiveOn, hzip,
    linearOn_columnTerms, ExtRat.sumOn,
    ← sum_collected m.objective.terms m.vars.length (fun j => x.getD j 0) hwidth]
  rfl

end Program

end Program

end Milp
