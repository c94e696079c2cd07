/-
What the search accepts, the audit accepts.

The search tests a point against the rows of its program, the audit an answer against the
variables and constraints of the model, each with tests and allowances of its own.
`Meets` is what both agree on: a point inside the bounds, whole where it should be, and
within the tolerance of every constraint. The search keeps to it, and of a point that
meets the model the audit changes nothing (`accept_of_meets`): no value is moved into its
bounds, none is rounded, and the allowance of a constraint is at least the one of the row.

What remains is that the status of an answer and its values go together, so that the
audit never misses an assignment that it was promised.
-/
import Milp.Proofs.Audit.Nearness
import Milp.Proofs.Search.Acceptance

set_option autoImplicit false

namespace Milp

/-- A point is inside the declared bounds, whole where it should be, and misses no
constraint by more than the tolerance times the larger of one and the magnitude of its
right-hand side. -/
structure Model.Meets (m : Model ExtRat) (t : ℚ) (x : List ℚ) : Prop where
  bounds : List.Forall₂ (fun (v : Variable ExtRat) q => v.bounds.Has (.fin q)) m.vars x
  whole : List.Forall₂ (fun (v : Variable ExtRat) (q : ℚ) =>
    v.isIntegral = true → ((q.floor : ℤ) : ℚ) = q) m.vars x
  constraints : ∀ c ∈ m.constraints,
    Number.le (c.relation.violation (c.lhs (x.map .fin)) c.rhs)
      (.fin t * Number.max (Number.abs c.rhs) 1) = true

/-! ## From rows to constraints -/

theorem Program.Accepts.meets {m : Model ExtRat} (sound : m.IsSound) {backend : String}
    {capabilities : Capabilities} {p : Program ExtRat}
    (lowered : ofModel m backend capabilities = .ok p)
    (finite : ∀ c ∈ m.constraints, Number.isFinite c.rhs = true) {t : ℚ} {x : List ℚ}
    (h : p.Accepts t x) : m.Meets t x := by
  obtain ⟨-, rfl⟩ := ofModel_eq_ok_iff.mp lowered
  -- columns are the variables, in order, with their bounds and kinds
  have hbounds : (columnsOf m).map (·.bounds) = m.vars.map (·.bounds) := by
    refine List.ext_getElem (by simp) fun i _ _ => ?_
    simp [columnsOf]
  have hinteger : (columnsOf m).map (·.integer) = m.vars.map (·.isIntegral) := by
    refine List.ext_getElem (by simp) fun i _ _ => ?_
    simp [columnsOf]
  have hinside := h.bounds
  simp only [Box.Has, hbounds, List.forall₂_map_left_iff, List.forall₂_map_right_iff] at hinside
  have len : x.length = (columnsOf m).length := by
    rw [length_columnsOf, hinside.length_eq]
  refine ⟨hinside, ?_, fun c hc => ?_⟩
  · have hwhole := (wholeAt_map_fin_iff len).mp h.whole
    rw [← List.forall₂_map_left_iff (f := fun c : Column ExtRat => c.integer)
      (R := fun b (q : ℚ) => b = true → ((q.floor : ℤ) : ℚ) = q)] at hwhole
    simpa [hinteger] using hwhole
  · have hrow := h.rows (rowOf c) (List.mem_map_of_mem hc)
    rw [lhs_eq_lhsOn fun t ht => (sound.constraints c hc t ht).2,
      ExtRat.eq_fin_of_isFinite (finite c hc), Relation.violation_fin, ExtRat.one_eq,
      ExtRat.abs_fin, ExtRat.max_fin, ExtRat.fin_mul, ExtRat.le_fin]
    exact decide_eq_true hrow

/-! ## Nothing is changed -/

namespace Model.Meets

variable {m : Model ExtRat} {t : ℚ} {x : List ℚ}

/-- To the check such a point is near enough: it allows at least as much. -/
theorem nearlySolved (h : m.Meets t x) (sound : m.IsSound)
    (finite : ∀ c ∈ m.constraints, Number.isFinite c.rhs = true) (ht : 0 ≤ t) :
    m.NearlySolved t x := by
  refine ⟨List.forall₂_iff_zip.mpr ⟨h.bounds.length_eq, fun {v q} hmem => ?_⟩, fun c hc => ?_⟩
  · have inside := (List.forall₂_iff_zip.mp h.bounds).2 hmem
    have whole := (List.forall₂_iff_zip.mp h.whole).2 hmem
    constructor
    · exact ⟨q, inside, by rwa [sub_self, abs_zero]⟩
    · intro hintegral
      exact ⟨q.floor, by rwa [whole hintegral, sub_self, abs_zero]⟩
  · have hterms : ∀ t ∈ c.terms, Number.isFinite t.2 = true :=
      fun t ht => (sound.constraints c hc t ht).2
    have hmeets := h.constraints c hc
    have habs : Number.abs c.rhs = .fin |c.rhs.value| := by
      rw [← ExtRat.abs_fin, ← ExtRat.eq_fin_of_isFinite (finite c hc)]
    rw [Audit.violation_map_fin hterms (finite c hc), habs, ExtRat.one_eq, ExtRat.max_fin,
      ExtRat.fin_mul, ExtRat.le_fin, decide_eq_true_iff] at hmeets
    -- the audit scales the tolerance by the activity as well
    have hscale : max |c.rhs.value| 1 ≤ max 1 (max |c.rhs.value| (c.activityOn x)) :=
      max_le (le_max_of_le_right (le_max_left _ _)) (le_max_left _ _)
    exact hmeets.trans (mul_le_mul_of_nonneg_left hscale ht)

/-- And there is nothing to clean. -/
theorem cleanOn_eq (h : m.Meets t x) : m.cleanOn x = x := by
  have hsame : ∀ entry ∈ m.vars.zip x, entry.1.cleanOn entry.2 = entry.2 := by
    rintro ⟨v, q⟩ hmem
    have inside := (List.forall₂_iff_zip.mp h.bounds).2 hmem
    have whole := (List.forall₂_iff_zip.mp h.whole).2 hmem
    rw [Variable.cleanOn]
    by_cases hintegral : v.isIntegral = true
    · rw [if_pos hintegral, ← whole hintegral, ExtRat.nearestInt_intCast]
    · rw [if_neg hintegral, Interval.nearest, Interval.clamp_of_has inside, ExtRat.value_fin]
  rw [Model.cleanOn, List.map_congr_left hsame]
  exact List.map_snd_zip h.bounds.length_eq.ge

end Model.Meets

namespace Audit

theorem objectiveDiffers_self {t : ℚ} (ht : 0 ≤ t) (a : ℚ) :
    objectiveDiffers (.fin t) (ExtRat.fin a) (.fin a) = false := by
  have hmargin : 0 ≤ t * 10 * max |a| 1 :=
    mul_nonneg (mul_nonneg ht (by norm_num)) (le_max_of_le_right zero_le_one)
  rw [objectiveDiffers, ExtRat.fin_sub, sub_self, ExtRat.abs_fin, ExtRat.abs_fin, ExtRat.one_eq,
    ExtRat.ten_eq, ExtRat.max_fin, ExtRat.fin_mul, ExtRat.fin_mul, ExtRat.gt_fin, abs_zero,
    decide_eq_false_iff_not, not_lt]
  exact hmargin

theorem check_of_meets {m : Model ExtRat} (sound : m.IsSound)
    (finite : ∀ c ∈ m.constraints, Number.isFinite c.rhs = true) {t : ℚ} (ht : 0 ≤ t)
    {x : List ℚ} (h : m.Meets t x) :
    ∃ quality, check (.fin t) m (x.map .fin) = .ok (x.map .fin, quality) := by
  refine ⟨m.qualityOn x, (check_eq_ok_iff sound finite ht).mpr ⟨x, rfl, ?_, ?_, rfl⟩⟩
  · exact h.nearlySolved sound finite ht
  · rw [h.cleanOn_eq]

/-- **A point that meets the model is accepted as it is**, with its own objective. -/
theorem accept_of_meets {m : Model ExtRat} (sound : m.IsSound)
    (finite : ∀ c ∈ m.constraints, Number.isFinite c.rhs = true) {t : ℚ} (ht : 0 ≤ t)
    {x : List ℚ} (h : m.Meets t x) {objective : ℚ}
    (evaluates : m.objective.evaluate (x.map .fin) = .fin objective) (backend : String) :
    ∃ quality, accept (.fin t) m backend (some (.fin objective)) (x.map .fin)
      = .ok (⟨m.vars.map (·.name), x.map .fin, .fin objective⟩, quality) := by
  obtain ⟨quality, hcheck⟩ := check_of_meets sound finite ht h
  refine ⟨quality, ?_⟩
  rw [accept, hcheck]
  simp only [bind, Except.bind, evaluates, objectiveDiffers_self ht]
  rfl

/-! ## Outcomes -/

section Outcomes

variable {t : ExtRat} {m : Model ExtRat} {backend : String} {answer : Answer ExtRat}

/-- An answer without values has an outcome unless its status promises them. -/
theorem outcome_of_none (values : answer.values = none)
    (status : answer.status ≠ .optimal ∧ answer.status ≠ .feasible) :
    outcome t m backend answer = .ok (withoutAssignment m backend answer) := by
  obtain ⟨ending, found, objective, iterations, nodes, message, tree⟩ := answer
  obtain rfl : found = none := values
  cases ending with
  | optimal => exact absurd rfl status.1
  | feasible => exact absurd rfl status.2
  | _ => rfl

/-- An answer whose values are accepted has an outcome, with them or without. -/
theorem outcome_of_some {values : List ExtRat} {accepted : Assignment ExtRat}
    {quality : Quality ExtRat} (there : answer.values = some values)
    (ok : accept t m backend answer.objective values = .ok (accepted, quality)) :
    ∃ o, outcome t m backend answer = .ok o
      ∧ ∀ a, o.assignment = some a → a = accepted := by
  obtain ⟨ending, found, objective, iterations, nodes, message, tree⟩ := answer
  obtain rfl : found = some values := there
  have hwithout : ∀ a, (withoutAssignment m backend (⟨ending, some values, objective, iterations,
      nodes, message, tree⟩ : Answer ExtRat)).assignment = some a → a = accepted := by
    intro a ha
    cases ha
  -- two statuses drop the values, the others have them checked
  cases ending with
  | infeasible => exact ⟨_, rfl, hwithout⟩
  | unbounded => exact ⟨_, rfl, hwithout⟩
  | _ =>
    refine ⟨_, congrArg (Except.map _) ok, fun a ha => ?_⟩
    exact (Option.some.inj ha).symm

end Outcomes

end Audit

/-! ## Runs -/

namespace Search

/-- A run through a solver that decides every linear program does not fail. -/
theorem run_ne_failed {p : Program ExtRat} (hp : p.IsRational) {solve : Simplex.Solver ExtRat}
    (decided : ∀ columns rows, solve columns rows ≠ .undecided) {limits : Limits ExtRat}
    {watch : Nat → Sighting} {bound : Nat} (fault : Fault ExtRat) :
    run p limits (p.relaxBy solve) watch bound ≠ .failed fault := by
  intro h
  obtain ⟨s, -, hstep⟩ := run_failed h
  obtain ⟨here, rest, -, horacle⟩ := step_failed hstep
  obtain ⟨answer, hok⟩ := Program.relaxBy_isOk hp decided here.box
  rw [hok] at horacle
  cases horacle

/-- Without values the status of an answer does not promise any. -/
theorem status_of_values_eq_none {α : Type} [Number α] {p : Program α} {limits : Limits α}
    {oracle : Oracle α} {watch : Nat → Sighting} {bound : Nat} {answer : Answer α}
    (h : run p limits oracle watch bound = .answered answer) (values : answer.values = none) :
    answer.status ≠ .optimal ∧ answer.status ≠ .feasible := by
  obtain ⟨s, -, hcases⟩ := answered_cases h
  rcases hcases with ⟨-, rfl⟩ | ⟨status, hstatus, rfl⟩ | ⟨hunbounded, -⟩
  · cases hbest : s.incumbent with
    | none => simp [State.answer]
    | some best =>
      rw [hbest, (s.values_answer (by simp)).1, hbest] at values
      cases values
  · rcases hstatus with rfl | rfl | rfl <;> simp [State.answer]
  · rw [hunbounded]
    simp

/-- **What the search accepts, the audit accepts.** Every model that was built with
linear relations and finite right-hand sides has a program, and however its search is
limited, watched or stopped, with an exact solver that does not fail and one tolerance
for both: the search does not fail, and its answer passes the audit. An assignment that
the outcome carries is the incumbent unchanged. It lies inside every declared bound, is
whole where it should be, and misses every constraint by at most the tolerance times the
larger of one and the magnitude of the right-hand side. -/
theorem audit_accepts_answers {id : ModelId} {name : String} {steps : List (BuildStep ExtRat)}
    {m : Model ExtRat} (built : Model.build id name steps = .ok m)
    (linear : ∀ c ∈ m.constraints, c.relation ≠ .differs)
    (finite : ∀ c ∈ m.constraints, Number.isFinite c.rhs = true) :
    ∃ p, Program.ofModel m branchAndBoundName .mixedInteger = .ok p
      ∧ ∀ solve : Simplex.Solver ExtRat, p.SolvedExactly solve →
        (∀ columns rows, solve columns rows ≠ .undecided) →
        ∀ (t : ℚ) (limits : Limits ExtRat), 0 ≤ t → limits.tolerance = .fin t →
        ∀ (watch : Nat → Sighting) (bound : Nat),
          (∀ fault, run p limits (p.relaxBy solve) watch bound ≠ .failed fault)
          ∧ ∀ answer, run p limits (p.relaxBy solve) watch bound = .answered answer →
            ∃ o, Audit.outcome (.fin t) m branchAndBoundName answer = .ok o
              ∧ ∀ a, o.assignment = some a → answer.values = some a.values
                ∧ answer.objective = some a.objective
                ∧ ∃ x : List ℚ, a.values = x.map .fin ∧ m.Meets t x := by
  have sound := Model.isSound_of_build built
  have hsupport := (Capabilities.checkSupport_mixedInteger_iff branchAndBoundName m).mpr linear
  obtain ⟨p, lowered⟩ : ∃ p, Program.ofModel m branchAndBoundName .mixedInteger = .ok p :=
    ⟨_, Program.ofModel_eq_ok_iff.mpr ⟨hsupport, rfl⟩⟩
  have hfinite : ∀ r ∈ p.rows, Number.isFinite r.rhs = true := by
    obtain ⟨-, rfl⟩ := Program.ofModel_eq_ok_iff.mp lowered
    intro r hr
    obtain ⟨c, hc, rfl⟩ := List.mem_map.mp hr
    exact finite c hc
  have hp := Program.isRational_of_ofModel sound lowered hfinite
  refine ⟨p, lowered, fun solve exact decided t limits ht htol watch bound =>
    ⟨run_ne_failed hp decided, fun answer answered => ?_⟩⟩
  cases hvalues : answer.values with
  | none =>
    refine ⟨_, Audit.outcome_of_none hvalues (status_of_values_eq_none answered hvalues), ?_⟩
    intro a ha
    cases ha
  | some values =>
    obtain ⟨s, best, reached, hbest, rfl, hobjective, -⟩ := values_of_answered answered hvalues
    obtain ⟨x, hx, hobj, haccepts⟩ := (reached.keeps hp ht htol exact).incumbent best hbest
    have hmeets := haccepts.meets sound lowered finite
    have hevaluates := Program.evaluate_eq_objectiveOn sound lowered hmeets.bounds.length_eq.symm
    obtain ⟨quality, hok⟩ :=
      Audit.accept_of_meets sound finite ht hmeets hevaluates branchAndBoundName
    rw [← hobj, ← hx, ← hobjective] at hok
    obtain ⟨o, ho, hassignment⟩ := Audit.outcome_of_some hvalues hok
    refine ⟨o, ho, fun a ha => ?_⟩
    rw [hassignment a ha]
    exact ⟨rfl, hobjective, x, hx, hmeets⟩

/-- The search of `budget` ends with the point `2`, and the audit passes it on. -/
theorem audit_accepts_answers_budget :
    ∃ answer o a, run budgetProgram exactLimits (budgetProgram.relaxBy budgetSolver)
        (fun _ => ⟨false, .zero⟩) 4 = .answered answer
      ∧ Audit.outcome (.fin 0) budget branchAndBoundName answer = .ok o
      ∧ o.assignment = some a ∧ a.values = [.fin 2] ∧ answer.values = some a.values
      ∧ ∃ x : List ℚ, a.values = x.map .fin ∧ budget.Meets 0 x := by
  have decided : ∀ columns rows, budgetSolver columns rows ≠ .undecided := by
    intro columns rows
    unfold budgetSolver
    split
    · dsimp only
      split <;> simp
    · simp
  obtain ⟨p, lowered, hruns⟩ := audit_accepts_answers budget_built (by decide) (by decide +kernel)
  obtain rfl : budgetProgram = p := Except.ok.inj (budget_lowered.symm.trans lowered)
  have hrun : (run budgetProgram exactLimits (budgetProgram.relaxBy budgetSolver)
      (fun _ => ⟨false, .zero⟩) 4).answer?.bind (fun answer =>
        (Audit.outcome (.fin 0) budget branchAndBoundName answer).toOption.bind fun o =>
          o.assignment.map (·.values)) = some [.fin 2] := by decide +kernel
  obtain ⟨answer, hanswer, hrun⟩ := Option.bind_eq_some_iff.mp hrun
  have hrun' := Run.eq_answered_of_answer? hanswer
  obtain ⟨o, ho, hassignment⟩ :=
    (hruns budgetSolver budget_solvedExactly decided 0 exactLimits le_rfl rfl _ 4).2 answer hrun'
  rw [ho] at hrun
  obtain ⟨a, ha, hvalues⟩ := Option.map_eq_some_iff.mp hrun
  obtain ⟨hsame, -, x, hx, hmeets⟩ := hassignment a ha
  exact ⟨answer, o, a, hrun', ho, ha, hvalues, hsame, x, hx, hmeets⟩

end Search

end Milp
