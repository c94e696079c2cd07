/-
What the answer "unbounded" says.

The search gives this answer for one reason, and before it has looked for a whole point: the
relaxation at the root is unbounded (`oracle_of_answered_unbounded`). Whether the
mixed-integer problem is depends on whether it has a point at all. If it has one, a ray of
the relaxation leads from it to points of any objective (`unbounded_of_answered`). If it has
none, the answer is the same: in `parity` the bounds and rows leave no whole value for one
column, the other can grow without end, and the problem is called unbounded although it is
infeasible.

All that is asked of the solver of linear programs is that it is right where it calls one
unbounded. Right-hand sides may be infinite.
-/
import Milp.Proofs.Program.Rays
import Milp.Proofs.Relaxation.Exact
import Milp.Proofs.Search.Improvement
import Milp.Proofs.Search.Subproblems

set_option autoImplicit false

namespace Milp

/-! ## Unbounded linear programs -/

/-- A row of a linear program holds at a point; its right-hand side may be infinite. -/
def Simplex.Row.MeetsAt (r : Simplex.Row ExtRat) (x : List ℚ) : Prop :=
  if r.equation then (ExtRat.fin (linearOn r.terms x) == r.rhs) = true
  else Number.le (ExtRat.fin (linearOn r.terms x)) r.rhs = true

/-- Where a solver calls a linear program of this program unbounded, there are points of any
cost. -/
def Program.UnboundedExactly (p : Program ExtRat) (solve : Simplex.Solver ExtRat) : Prop :=
  ∀ (box : Box ExtRat) (rows : List (Simplex.Row ExtRat)), box.length = p.columns.length →
    Program.linearRows p.rows = .ok (some rows) → solve (p.linearColumns box) rows = .unbounded →
    ∀ bound, ∃ x, List.Forall₂ (fun (c : Simplex.Column ExtRat) v => c.bounds.Has (.fin v))
        (p.linearColumns box) x
      ∧ (∀ r ∈ rows, r.MeetsAt x) ∧ Simplex.costOn (p.linearColumns box) x < bound

namespace Program

variable {p : Program ExtRat} {solve : Simplex.Solver ExtRat}

theorem le_neg_iff (a : ℚ) (b : ExtRat) :
    Number.le (ExtRat.fin (-a)) (-b) = true ↔ Number.le b (ExtRat.fin a) = true := by
  cases b with
  | fin q =>
    rw [ExtRat.fin_neg, ExtRat.le_fin, ExtRat.le_fin, decide_eq_true_iff, decide_eq_true_iff]
    exact neg_le_neg_iff
  | nan => exact Iff.rfl
  | negInf => exact Iff.rfl
  | posInf => exact Iff.rfl

/-- A row and the linear row made of it hold at the same points. -/
theorem Row.meetsAt_asLinear {r : Row ExtRat} (terms : ∀ t ∈ r.terms, t.2 = .fin t.2.value)
    (linear : r.relation ≠ .differs) (x : List ℚ) : r.asLinear.MeetsAt x ↔ r.MeetsAt x := by
  rw [Row.MeetsAt, Row.lhs_of_finite terms]
  obtain ⟨name, ts, relation, rhs⟩ := r
  cases relation with
  | atMost => exact Iff.rfl
  | equal => exact Iff.rfl
  | atLeast =>
    show Number.le (ExtRat.fin (linearOn (ts.map fun t => (t.1, -t.2)) x)) (-rhs) = true ↔ _
    rw [linearOn_neg terms]
    exact le_neg_iff _ rhs
  | differs => exact absurd rfl linear

/-- The linear rows are those with terms. -/
theorem linearRows_eq {rows : List (Row ExtRat)} {found : List (Simplex.Row ExtRat)}
    (h : linearRows rows = .ok (some found)) :
    found = (rows.filter fun r => !r.terms.isEmpty).map Row.asLinear := by
  induction rows generalizing found with
  | nil =>
    rw [linearRows, Except.ok.injEq, Option.some.injEq] at h
    rw [← h]
    rfl
  | cons r rest ih =>
    rw [linearRows] at h
    by_cases hempty : r.terms.isEmpty = true
    · rw [if_pos hempty] at h
      rw [List.filter_cons_of_neg (by simp [hempty])]
      split at h
      · exact ih h
      · cases h
    · rw [if_neg hempty] at h
      rw [List.filter_cons_of_pos (by simpa using hempty), List.map_cons]
      split at h
      · cases h
      · obtain ⟨later, hlater, hmap⟩ := Attempt.map_eq_ok_iff.mp h
        obtain ⟨tail, rfl, rfl⟩ := Option.map_eq_some_iff.mp hmap
        rw [ih hlater]

/-- With finite right-hand sides, a solver that is right about every linear program is right
where it calls one unbounded. -/
theorem SolvedExactly.unboundedExactly (hp : p.IsRational) (h : p.SolvedExactly solve) :
    p.UnboundedExactly solve := by
  intro box rows len hrows hsolve bound
  have hright := h box rows len hrows
  rw [hsolve] at hright
  obtain ⟨x, hx, hcost⟩ := hright.2 bound
  refine ⟨x, hx.inside, fun l hl => ?_, hcost⟩
  have hholds := hx.rows l hl
  rw [linearRows_eq hrows] at hl
  obtain ⟨r, hr, rfl⟩ := List.mem_map.mp hl
  have hrat := hp.rows r (List.mem_of_mem_filter hr)
  rw [Row.asLinear_holdsOn hrat] at hholds
  refine (Row.meetsAt_asLinear (fun t ht => (hrat.terms t ht).2) hrat.linear x).mpr ?_
  refine (Row.meetsAt_iff (fun t ht => (hrat.terms t ht).2) ?_ x).mpr hholds
  rw [hrat.rhs]
  exact ExtRat.isFinite_fin _

/-- A relaxation is unbounded only where the solver says so. -/
theorem solve_of_relaxBy_unbounded {box : Box ExtRat}
    (h : p.relaxBy solve box = .ok .unbounded) :
    ∃ rows, linearRows p.rows = .ok (some rows)
      ∧ solve (p.linearColumns box) rows = .unbounded := by
  by_cases hempty : isEmptyBox box = true
  · rw [relaxBy, if_pos hempty] at h
    cases h
  by_cases hcols : p.columns.isEmpty = true
  · rw [relaxBy, if_neg hempty, if_pos hcols] at h
    injection h with h
    split at h <;> cases h
  cases hfound : linearRows p.rows with
  | error fault =>
    rw [relaxBy, if_neg hempty, if_neg hcols, hfound] at h
    cases h
  | ok found =>
    cases found with
    | none =>
      rw [relaxBy_of_none hempty hcols hfound] at h
      cases h
    | some rows =>
      rw [relaxBy_of_some hempty hcols hfound] at h
      refine ⟨rows, rfl, ?_⟩
      cases hverdict : solve (p.linearColumns box) rows <;> rw [hverdict] at h <;>
        first | rfl | cases h

/-- **An unbounded relaxation at the root has points of any cost.** -/
theorem points_of_relaxBy_unbounded (data : p.HasRationalData)
    (exactly : p.UnboundedExactly solve)
    (h : p.relaxBy solve (Search.rootBox p) = .ok .unbounded) (bound : ℚ) :
    ∃ x, Box.Has (p.columns.map (·.bounds)) (x.map .fin)
      ∧ (∀ r ∈ p.rows, r.terms ≠ [] → r.MeetsAt x) ∧ p.costOn x < bound := by
  obtain ⟨rows, hrows, hsolve⟩ := solve_of_relaxBy_unbounded h
  have len : (Search.rootBox p).length = p.columns.length := List.length_map _
  obtain ⟨x, hinside, hmeets, hcost⟩ := exactly (Search.rootBox p) rows len hrows hsolve
    (bound - p.sense.cost p.constant.value)
  -- the columns of the linear program do not depend on the rows, which may be infinite
  have hcolumns : ({ p with rows := [] } : Program ExtRat).IsRational :=
    ⟨data.bounds, data.objective, data.constant, by simp⟩
  have houtward : Box.IsOutward (Search.rootBox p) := by
    intro b hb
    obtain ⟨c, hc, rfl⟩ := List.mem_map.mp hb
    exact Search.isOutward_rootBounds (data.bounds c hc)
  have hnone : (∀ l ∈ ([] : List (Simplex.Row ExtRat)), Simplex.Row.HoldsOn l x)
      ↔ ∀ r ∈ ([] : List (Row ExtRat)), r.HoldsOn x := by simp
  have hrelaxed : ({ p with rows := [] } : Program ExtRat).Relaxed (Search.rootBox p) x :=
    (feasible_iff_relaxed houtward hnone).mp ⟨hinside, by simp⟩
  have hsum : Simplex.costOn (p.linearColumns (Search.rootBox p)) x
      + p.sense.cost p.constant.value = p.costOn x := costOn_linearColumns hcolumns len x
  refine ⟨x, Search.has_bounds_of_has_rootBox hrelaxed.inside, fun r hr hterms => ?_, by linarith⟩
  exact (Row.meetsAt_asLinear (data.terms r hr) (data.linear r hr) x).mp
    (hmeets _ (linearRows_eq hrows ▸ List.mem_map_of_mem
      (List.mem_filter.mpr ⟨hr, by simpa using hterms⟩)))

end Program

/-! ## The answer -/

namespace Search

section Runs

variable {p : Program ExtRat} {limits : Limits ExtRat} {solve : Simplex.Solver ExtRat}
  {watch : Nat → Sighting} {bound : Nat} {answer : Answer ExtRat}

/-- **Why a problem is called unbounded**: the relaxation at the root is. -/
theorem oracle_of_answered_unbounded {oracle : Oracle ExtRat}
    (answered : run p limits oracle watch bound = .answered answer)
    (status : answer.status = .unbounded) : oracle (rootBox p) = .ok .unbounded := by
  obtain ⟨s, last, ended, reached, hstep, rfl⟩ := run_answered answered
  obtain rfl : ended = .unbounded := status
  have hends := stepped p limits oracle (watch s.explored) s
  rw [hstep] at hends
  generalize hstatus : Answer.Status.unbounded = ended at hends
  cases hends with
  | exhausted empty => split at hstatus <;> cases hstatus
  | halted here rest status top halts =>
    rcases haltStatus?_some halts with rfl | rfl | rfl <;> cases hstatus
  | rootUnbounded here rest top goesOn answers root =>
    -- the root is on the stack at the start only
    rcases reached.pastRoot with rfl | ⟨hpast, -⟩
    · obtain ⟨rfl, -⟩ := List.cons.inj top
      exact answers
    · exact absurd root (hpast here (top ▸ List.mem_cons_self))

/-- **Unbounded means unbounded, if there is a point.** For every program of a built model,
every solver that is right where it calls a linear program unbounded, and however the search
is limited and watched: if it answers that the problem is unbounded, and the mixed-integer
problem has a point, then it has points whose objective is better than any given one. -/
theorem unbounded_of_answered {id : ModelId} {name : String} {steps : List (BuildStep ExtRat)}
    {m : Model ExtRat} {p : Program ExtRat} (built : Model.build id name steps = .ok m)
    (lowered : Program.ofModel m branchAndBoundName .mixedInteger = .ok p)
    (solve : Simplex.Solver ExtRat) (exactly : p.UnboundedExactly solve)
    (limits : Limits ExtRat) (watch : Nat → Sighting) (bound : Nat) (answer : Answer ExtRat)
    (answered : run p limits (p.relaxBy solve) watch bound = .answered answer)
    (status : answer.status = .unbounded) (point : ∃ q, p.Solves q) (objective : ℚ) :
    ∃ q, p.Solves q
      ∧ p.sense.ahead (p.objectiveValue (q.map .fin)) (.fin objective) = true := by
  have data := Program.hasRationalData_of_ofModel (Model.isSound_of_build built) lowered
  have hroot := oracle_of_answered_unbounded answered status
  obtain ⟨d, ray⟩ := Program.exists_ray data fun cost =>
    Program.points_of_relaxBy_unbounded data exactly hroot cost
  obtain ⟨q, hq⟩ := point
  obtain ⟨q', hq', hcost⟩ := ray.exists_cheaper hq (p.sense.cost objective)
  refine ⟨q', hq', ?_⟩
  rw [Program.objectiveValue_of_finite data.objective data.constant]
  rw [Program.costOn] at hcost
  cases hsense : p.sense with
  | minimize =>
    rw [hsense] at hcost
    exact decide_eq_true hcost
  | maximize =>
    rw [hsense] at hcost
    exact decide_eq_true (neg_lt_neg_iff.mp hcost)

end Runs

/-! ### Two programs without end -/

/-- A solver that knows the answer for columns with given ends only: there is no end. -/
def soaring (ends : List (ExtRat × ExtRat)) : Simplex.Solver ExtRat := fun columns _ =>
  if columns.map (fun c => (c.bounds.lower, c.bounds.upper)) = ends then .unbounded
  else .undecided

/-- A point inside given ends is inside the columns that have them. -/
theorem inside_of_ends {columns : List (Simplex.Column ExtRat)} {ends : List (ExtRat × ExtRat)}
    (h : columns.map (fun c => (c.bounds.lower, c.bounds.upper)) = ends) {x : List ℚ}
    (inside : List.Forall₂
      (fun (e : ExtRat × ExtRat) v => (⟨e.1, e.2⟩ : Interval ExtRat).Has (.fin v)) ends x) :
    List.Forall₂ (fun (c : Simplex.Column ExtRat) v => c.bounds.Has (.fin v)) columns x := by
  rw [← h, List.forall₂_map_left_iff] at inside
  exact inside

theorem has_nonNegative {v : ℚ} (hv : 0 ≤ v) : (⟨.fin 0, .posInf⟩ : Interval ExtRat).Has (.fin v) :=
  ⟨by simpa using hv, ExtRat.le_fin_posInf v⟩

/-- It is right about a program if the linear program it knows the answer for has no end. -/
theorem solvedExactly_soaring {p : Program ExtRat} {ends : List (ExtRat × ExtRat)}
    (points : ∀ (box : Box ExtRat) (rows : List (Simplex.Row ExtRat)),
      box.length = p.columns.length → Program.linearRows p.rows = .ok (some rows) →
      (p.linearColumns box).map (fun c => (c.bounds.lower, c.bounds.upper)) = ends →
      ∀ v : ℚ, 0 ≤ v → ∃ x, Simplex.Feasible (p.linearColumns box) rows x
        ∧ Simplex.costOn (p.linearColumns box) x = -v) :
    p.SolvedExactly (soaring ends) := by
  intro box rows len hrows
  rw [soaring]
  split
  · next hends =>
    have hpoints := points box rows len hrows hends
    constructor
    · obtain ⟨x, hx, -⟩ := hpoints 0 le_rfl
      exact ⟨x, hx⟩
    · intro bound
      obtain ⟨x, hx, hcost⟩ := hpoints (|bound| + 1) (by positivity)
      exact ⟨x, hx, by linarith [neg_abs_le bound]⟩
  · trivial

/-- Maximize a whole `x` that is at most `5 / 2` more than `y`; both are not negative. -/
def ladderSteps : List (BuildStep ExtRat) :=
  [.declare "x" .integer ⟨.fin 0, .posInf⟩, .declare "y" .continuous ⟨.fin 0, .posInf⟩,
    .constrain none (.ofTerms [(⟨⟨1⟩, 0⟩, .fin 1), (⟨⟨1⟩, 1⟩, .fin (-1))]) .atMost (.fin (5 / 2)),
    .optimize (.ofHandle ⟨⟨1⟩, 0⟩) .maximize]

/-- The model that these steps build. -/
def ladder : Model ExtRat where
  id := ⟨1⟩
  name := ""
  vars := [⟨"x", .integer, ⟨.fin 0, .posInf⟩⟩, ⟨"y", .continuous, ⟨.fin 0, .posInf⟩⟩]
  constraints := [⟨"c0", [(⟨⟨1⟩, 0⟩, .fin 1), (⟨⟨1⟩, 1⟩, .fin (-1))], .atMost, .fin (5 / 2)⟩]
  objective := ⟨.maximize, [(⟨⟨1⟩, 0⟩, .fin 1)], .fin 0⟩

/-- The program of the model. -/
def ladderProgram : Program ExtRat where
  columns := [⟨"x", ⟨.fin 0, .posInf⟩, true, .fin 1⟩, ⟨"y", ⟨.fin 0, .posInf⟩, false, .fin 0⟩]
  rows := [⟨"c0", [(0, .fin 1), (1, .fin (-1))], .atMost, .fin (5 / 2)⟩]
  sense := .maximize
  constant := .fin 0

theorem ladder_built : Model.build ⟨1⟩ "" ladderSteps = .ok ladder := by
  with_unfolding_all rfl

theorem ladder_lowered :
    Program.ofModel ladder branchAndBoundName .mixedInteger = .ok ladderProgram := by
  with_unfolding_all rfl

theorem ladder_solvedExactly :
    ladderProgram.SolvedExactly (soaring [(.fin 0, .posInf), (.fin 0, .posInf)]) := by
  refine solvedExactly_soaring fun box rows len hrows hends v hv =>
    ⟨[v, v], ⟨?_, fun r hr => ?_⟩, ?_⟩
  all_goals obtain ⟨b, c, rfl⟩ := List.length_eq_two.mp len
  · exact inside_of_ends hends (.cons (has_nonNegative hv) (.cons (has_nonNegative hv) .nil))
  · rw [Program.linearRows_eq hrows] at hr
    obtain rfl : r = ⟨[(0, .fin 1), (1, .fin (-1))], false, .fin (5 / 2)⟩ :=
      List.mem_singleton.mp hr
    show (1 * v + (-1 * v + 0) : ℚ) ≤ 5 / 2
    linarith
  · show (-1 * v + (-0 * v + 0) : ℚ) = -v
    ring

theorem ladder_solves : ladderProgram.Solves [0, 0] where
  bounds := .cons ⟨by decide +kernel, by decide +kernel⟩
    (.cons ⟨by decide +kernel, by decide +kernel⟩ .nil)
  whole := by
    unfold Program.WholeAt
    decide +kernel
  rows := by
    unfold Program.Row.MeetsAt
    decide +kernel

/-- The search of `ladder` ends at the root; the point zero is one of points of any
objective. -/
theorem unbounded_of_answered_ladder :
    ∃ answer, run ladderProgram exactLimits
        (ladderProgram.relaxBy (soaring [(.fin 0, .posInf), (.fin 0, .posInf)]))
        (fun _ => ⟨false, .zero⟩) 1 = .answered answer
      ∧ answer.status = .unbounded
      ∧ ∃ q, ladderProgram.Solves q
        ∧ Sense.maximize.ahead (ladderProgram.objectiveValue (q.map .fin)) (.fin 1000) = true := by
  have hrun : (run ladderProgram exactLimits
      (ladderProgram.relaxBy (soaring [(.fin 0, .posInf), (.fin 0, .posInf)]))
      (fun _ => ⟨false, .zero⟩) 1).answer?.map (·.status) = some .unbounded := by decide +kernel
  obtain ⟨answer, hanswer, hstatus⟩ := Option.map_eq_some_iff.mp hrun
  have hrun := Run.eq_answered_of_answer? hanswer
  have hrational := Program.isRational_of_ofModel (Model.isSound_of_build ladder_built)
    ladder_lowered (by decide +kernel)
  exact ⟨answer, hrun, hstatus, unbounded_of_answered ladder_built ladder_lowered _
    (ladder_solvedExactly.unboundedExactly hrational) exactLimits _ 1 answer hrun hstatus
    ⟨_, ladder_solves⟩ 1000⟩

/-- Maximize `x`, which is not negative, where twice a whole `y` from 0 to 1 is one. -/
def paritySteps : List (BuildStep ExtRat) :=
  [.declare "x" .continuous ⟨.fin 0, .posInf⟩, .declare "y" .integer ⟨.fin 0, .fin 1⟩,
    .constrain none (.ofTerm ⟨⟨1⟩, 1⟩ (.fin 2)) .equal (.fin 1),
    .optimize (.ofHandle ⟨⟨1⟩, 0⟩) .maximize]

/-- The model that these steps build. -/
def parity : Model ExtRat where
  id := ⟨1⟩
  name := ""
  vars := [⟨"x", .continuous, ⟨.fin 0, .posInf⟩⟩, ⟨"y", .integer, ⟨.fin 0, .fin 1⟩⟩]
  constraints := [⟨"c0", [(⟨⟨1⟩, 1⟩, .fin 2)], .equal, .fin 1⟩]
  objective := ⟨.maximize, [(⟨⟨1⟩, 0⟩, .fin 1)], .fin 0⟩

/-- The program of the model. -/
def parityProgram : Program ExtRat where
  columns := [⟨"x", ⟨.fin 0, .posInf⟩, false, .fin 1⟩, ⟨"y", ⟨.fin 0, .fin 1⟩, true, .fin 0⟩]
  rows := [⟨"c0", [(1, .fin 2)], .equal, .fin 1⟩]
  sense := .maximize
  constant := .fin 0

theorem parity_built : Model.build ⟨1⟩ "" paritySteps = .ok parity := by
  with_unfolding_all rfl

theorem parity_lowered :
    Program.ofModel parity branchAndBoundName .mixedInteger = .ok parityProgram := by
  with_unfolding_all rfl

theorem parity_solvedExactly :
    parityProgram.SolvedExactly (soaring [(.fin 0, .posInf), (.fin 0, .fin 1)]) := by
  refine solvedExactly_soaring fun box rows len hrows hends v hv =>
    ⟨[v, 1 / 2], ⟨?_, fun r hr => ?_⟩, ?_⟩
  all_goals obtain ⟨b, c, rfl⟩ := List.length_eq_two.mp len
  · exact inside_of_ends hends
      (.cons (has_nonNegative hv) (.cons ⟨by decide +kernel, by decide +kernel⟩ .nil))
  · rw [Program.linearRows_eq hrows] at hr
    obtain rfl : r = ⟨[(1, .fin 2)], true, .fin 1⟩ := List.mem_singleton.mp hr
    show (2 * (1 / 2) + 0 : ℚ) = 1
    norm_num
  · show (-1 * v + (-0 * (1 / 2) + 0) : ℚ) = -v
    ring

/-- No whole number is one half. -/
theorem not_solves_parity (q : List ℚ) : ¬ parityProgram.Solves q := by
  intro h
  have len : q.length = parityProgram.columns.length := by simpa using h.bounds.length_eq.symm
  obtain ⟨x, y, rfl⟩ := List.length_eq_two.mp len
  have hwhole := (Program.wholeAt_map_fin_iff len).mp h.whole
  obtain ⟨-, hy⟩ := List.forall₂_cons.mp hwhole
  have hfloor : ((y.floor : ℤ) : ℚ) = y := (List.forall₂_cons.mp hy).1 rfl
  have hrow := h.rows _ List.mem_cons_self
  rw [Program.Row.meetsAt_iff (by decide +kernel) (by decide +kernel)] at hrow
  have htwice : (2 * y + 0 : ℚ) = 1 := hrow
  rw [← hfloor] at htwice
  have hcast : (2 : ℤ) * y.floor = 1 := by
    have : (2 * (y.floor : ℤ) : ℚ) = 1 := by linarith
    exact_mod_cast this
  omega

/-- **An infeasible problem that is called unbounded.** With an exact solver the search of
`parity` answers at the root that there is no end, although there is not even a point. -/
theorem unbounded_parity :
    Model.build ⟨1⟩ "" paritySteps = .ok parity
      ∧ Program.ofModel parity branchAndBoundName .mixedInteger = .ok parityProgram
      ∧ (∃ solve, parityProgram.SolvedExactly solve
        ∧ ∃ answer, run parityProgram exactLimits (parityProgram.relaxBy solve)
            (fun _ => ⟨false, .zero⟩) 1 = .answered answer
          ∧ answer.status = .unbounded)
      ∧ ∀ q, ¬ parityProgram.Solves q := by
  refine ⟨parity_built, parity_lowered, ⟨_, parity_solvedExactly, ?_⟩, not_solves_parity⟩
  have hrun : (run parityProgram exactLimits
      (parityProgram.relaxBy (soaring [(.fin 0, .posInf), (.fin 0, .fin 1)]))
      (fun _ => ⟨false, .zero⟩) 1).answer?.map (·.status) = some .unbounded := by decide +kernel
  obtain ⟨answer, hanswer, hstatus⟩ := Option.map_eq_some_iff.mp hrun
  exact ⟨answer, Run.eq_answered_of_answer? hanswer, hstatus⟩

/-- The simplex method comes to the same answer. -/
example : (run parityProgram exactLimits (parityProgram.relax 0) (fun _ => ⟨false, .zero⟩)
    1).answer?.map (·.status) = some .unbounded := by
  decide +kernel

end Search

end Milp
