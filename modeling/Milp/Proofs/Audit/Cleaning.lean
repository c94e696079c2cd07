/-
What cleaning costs.

Constraints are checked at the values as they were reported, and nobody checks the values that
are handed on. But these are not far away. Cleaning moves a value that passes by no more than
the tolerance (`Variable.NearlyTakes.abs_cleanOn_sub_le`), so a linear expression moves by no
more than the tolerance times the magnitudes of its coefficients (`abs_linearOn_sub_le`), and a
linear relation is missed by at most that much more (`Relation.miss_le_add`). For "differs from"
this is false: two sides may be a little apart before and equal after.
-/
import Milp.Proofs.Audit.Nearness
import Milp.Proofs.Relaxation.Exact

set_option autoImplicit false

namespace Milp

/-! ## Points that moved a little -/

/-- No coordinate of two points differs by more than `t`. -/
def Near (t : ℚ) (x y : List ℚ) : Prop := ∀ i : Nat, |y.getD i 0 - x.getD i 0| ≤ t

/-- The magnitudes of some coefficients, together. -/
def weightOf (terms : List (Handle × ExtRat)) : ℚ := (terms.map fun t => |t.2.value|).sum

theorem abs_linearOn_sub_le {t : ℚ} {x y : List ℚ} (near : Near t x y)
    (terms : List (Handle × ExtRat)) :
    |linearOn (Program.columnTerms terms) y - linearOn (Program.columnTerms terms) x|
      ≤ t * weightOf terms := by
  induction terms with
  | nil => simp [linearOn, Program.columnTerms, weightOf]
  | cons term terms ih =>
    have hone : |term.2.value * y.getD term.1.index 0 - term.2.value * x.getD term.1.index 0|
        ≤ t * |term.2.value| := by
      rw [← mul_sub, abs_mul, mul_comm]
      exact mul_le_mul_of_nonneg_right (near term.1.index) (abs_nonneg _)
    simp only [linearOn, Program.columnTerms, weightOf, List.map_cons, List.sum_cons] at ih ⊢
    rw [add_sub_add_comm, mul_add]
    exact (abs_add_le _ _).trans (add_le_add hone ih)

/-- Where one side moves, a linear relation is missed by at most that much more. -/
theorem Relation.miss_le_add {r : Relation} (linear : r ≠ .differs) {a b d : ℚ}
    (h : |b - a| ≤ d) (right : ℚ) : r.miss b right ≤ r.miss a right + d := by
  obtain ⟨hlow, hhigh⟩ := abs_le.mp h
  cases r with
  | atMost =>
    have hmax : a - right ≤ Relation.miss .atMost a right := le_max_left _ _
    exact max_le (by linarith) (add_nonneg (le_max_right _ _) (by linarith))
  | equal =>
    calc |b - right| = |(a - right) + (b - a)| := by ring_nf
      _ ≤ |a - right| + |b - a| := abs_add_le _ _
      _ ≤ |a - right| + d := by linarith
  | atLeast =>
    have hmax : right - a ≤ Relation.miss .atLeast a right := le_max_left _ _
    exact max_le (by linarith) (add_nonneg (le_max_right _ _) (by linarith))
  | differs => exact absurd rfl linear

/-! ## Clean points are near -/

theorem Variable.NearlyTakes.abs_cleanOn_sub_le {v : Variable ExtRat}
    (valid : v.bounds.isValid = true) {t q : ℚ} (h : v.NearlyTakes t q) (ht : 0 ≤ t) :
    |v.cleanOn q - q| ≤ t := by
  obtain ⟨hbounds, hgap⟩ := (Variable.nearlyTakes_iff valid ht).mp h
  rw [abs_sub_comm, cleanOn]
  by_cases hintegral : v.isIntegral = true
  · rw [if_pos hintegral]
    rwa [gapOn, if_pos hintegral] at hgap
  · rw [if_neg hintegral]
    exact hbounds

theorem Model.NearlySolved.near_cleanOn {m : Model ExtRat} (sound : m.IsSound) {t : ℚ}
    {x : List ℚ} (h : m.NearlySolved t x) (ht : 0 ≤ t) : Near t x (m.cleanOn x) := by
  intro i
  have hlen : m.vars.length = x.length := h.values.length_eq
  have hclean : (m.cleanOn x).length = x.length := by
    rw [Model.cleanOn, List.length_map, List.length_zip, hlen, min_self]
  by_cases hi : i < x.length
  · have hv : i < m.vars.length := hlen ▸ hi
    rw [List.getD_eq_getElem _ _ hi, List.getD_eq_getElem _ _ (hclean ▸ hi)]
    simp only [Model.cleanOn, List.getElem_map, List.getElem_zip]
    exact ((List.forall₂_iff_get.mp h.values).2 i hv hi).abs_cleanOn_sub_le
      (sound.bounds _ (List.getElem_mem hv)) ht
  · rw [List.getD_eq_default _ _ (not_lt.mp hi),
      List.getD_eq_default _ _ (hclean ▸ not_lt.mp hi), sub_self, abs_zero]
    exact ht

/-! ## What is missed after cleaning -/

theorem Constraint.missOn_le_of_near {c : Constraint ExtRat} (linear : c.relation ≠ .differs)
    {t : ℚ} {x y : List ℚ} (near : Near t x y) :
    c.missOn y ≤ c.missOn x + t * weightOf c.terms :=
  Relation.miss_le_add linear (abs_linearOn_sub_le near c.terms) c.rhs.value

/-- The objective at a point. -/
def Objective.valueOn (o : Objective ExtRat) (x : List ℚ) : ℚ :=
  linearOn (Program.columnTerms o.terms) x + o.constant.value

theorem Objective.evaluate_map_fin {o : Objective ExtRat}
    (finite : ∀ t ∈ o.terms, Number.isFinite t.2 = true)
    (constant : Number.isFinite o.constant = true) (x : List ℚ) :
    o.evaluate (x.map .fin) = .fin (o.valueOn x) := by
  rw [evaluate, valueOn, Program.weightedSum_columnValue finite, ← ExtRat.fin_add,
    ← ExtRat.eq_fin_of_isFinite constant]

namespace Audit

/-- **Cleaning costs a known amount.** In a model that was built with linear relations and
finite right-hand sides, the values that the check returns miss no constraint by more than the
check allows at the values it was given and, on top, the tolerance times the magnitudes of the
coefficients. The objective changes by no more than the tolerance times the magnitudes of its
own. -/
theorem cleaning_costs_little {id : ModelId} {name : String} {steps : List (BuildStep ExtRat)}
    {m : Model ExtRat} (built : Model.build id name steps = .ok m)
    (linear : ∀ c ∈ m.constraints, c.relation ≠ .differs)
    (finite : ∀ c ∈ m.constraints, Number.isFinite c.rhs = true) {t : ℚ} (ht : 0 ≤ t)
    {values cleaned : List ExtRat} {quality : Quality ExtRat}
    (passes : check (.fin t) m values = .ok (cleaned, quality)) :
    ∃ x : List ℚ, values = x.map .fin
      ∧ (∀ c ∈ m.constraints, ∃ d : ℚ, c.relation.violation (c.lhs cleaned) c.rhs = .fin d
          ∧ d ≤ t * max 1 (max |c.rhs.value| (c.activityOn x)) + t * weightOf c.terms)
      ∧ ∃ before after : ℚ, m.objective.evaluate values = .fin before
          ∧ m.objective.evaluate cleaned = .fin after
          ∧ |after - before| ≤ t * weightOf m.objective.terms := by
  have sound := Model.isSound_of_build built
  obtain ⟨x, rfl, hx, rfl, -⟩ := (check_eq_ok_iff sound finite ht).mp passes
  have hnear := hx.near_cleanOn sound ht
  refine ⟨x, rfl, fun c hc => ?_, ?_⟩
  · have hterms : ∀ t ∈ c.terms, Number.isFinite t.2 = true :=
      fun t ht => (sound.constraints c hc t ht).2
    refine ⟨_, violation_map_fin hterms (finite c hc) (m.cleanOn x), ?_⟩
    calc c.missOn (m.cleanOn x) ≤ c.missOn x + t * weightOf c.terms :=
          Constraint.missOn_le_of_near (linear c hc) hnear
      _ ≤ c.allowanceOn t x + t * weightOf c.terms :=
          add_le_add_left (hx.constraints c hc) _
  · have hterms : ∀ t ∈ m.objective.terms, Number.isFinite t.2 = true :=
      fun t ht => (sound.objective t ht).2
    refine ⟨_, _, Objective.evaluate_map_fin hterms sound.constant x,
      Objective.evaluate_map_fin hterms sound.constant (m.cleanOn x), ?_⟩
    rw [Objective.valueOn, Objective.valueOn, add_sub_add_right_eq_sub]
    exact abs_linearOn_sub_le hnear m.objective.terms

/-- In `budget`, where twice `x` is at most 5, a tolerance of one half lets `2.5` pass, which
becomes `3`. That misses the constraint by 1, and the objective gains one half. -/
theorem cleaning_costs_little_budget :
    (∀ c ∈ budget.constraints, ∃ d : ℚ, c.relation.violation (c.lhs [.fin 3]) c.rhs = .fin d
        ∧ d ≤ 1 / 2 * max 1 (max |c.rhs.value| (c.activityOn [5 / 2])) + 1 / 2 * weightOf c.terms)
      ∧ ∃ before after : ℚ, budget.objective.evaluate [.fin (5 / 2)] = .fin before
          ∧ budget.objective.evaluate [.fin 3] = .fin after
          ∧ |after - before| ≤ 1 / 2 * weightOf budget.objective.terms := by
  have hcheck : (check (.fin (1 / 2)) budget [.fin (5 / 2)]).toOption.map Prod.fst
      = some [.fin 3] := by decide +kernel
  obtain ⟨⟨cleaned, quality⟩, hresult, rfl⟩ := Option.map_eq_some_iff.mp hcheck
  obtain ⟨x, hx, hcosts⟩ := cleaning_costs_little budget_built (by decide) (by decide +kernel)
    (by norm_num : (0 : ℚ) ≤ 1 / 2) (Attempt.eq_ok_of_toOption hresult)
  obtain rfl : [5 / 2] = x := ExtRat.map_fin_injective hx
  exact hcosts

end Audit

end Milp
