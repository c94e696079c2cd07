/-
Exact relaxations.

The relaxation of a node goes to a solver of linear programs, which is not part of the
search. What the search relies on is `SolvedExactly`: each verdict about a linear
program of this program is right. An optimal point is a feasible one of least cost, a
program called infeasible has no point, and one called unbounded has points of any cost.
A solver may also leave a program undecided, which the search reports as a failure.

Around the solver the relaxation does some work of its own: it settles empty boxes,
programs without columns and rows without terms, turns every row into one that bounds
its terms from above, and every objective into a cost. `relaxBy_isRight` says that
nothing is lost there. What comes out is right about the relaxation of the program, in
the program's own terms.
-/
import Milp.Proofs.Program.OfModel

set_option autoImplicit false

namespace Milp

/-! ## Linear programs -/

namespace Simplex

/-- A row holds at a point. -/
def Row.HoldsOn (r : Row ExtRat) (x : List ℚ) : Prop :=
  if r.equation then linearOn r.terms x = r.rhs.value else linearOn r.terms x ≤ r.rhs.value

/-- A point is within the bounds and satisfies the rows. -/
structure Feasible (columns : List (Column ExtRat)) (rows : List (Row ExtRat)) (x : List ℚ) :
    Prop where
  inside : List.Forall₂ (fun (c : Column ExtRat) v => c.bounds.Has (.fin v)) columns x
  rows : ∀ r ∈ rows, r.HoldsOn x

/-- The cost of a point. -/
def costOn (columns : List (Column ExtRat)) (x : List ℚ) : ℚ :=
  (List.zipWith (fun (c : Column ExtRat) v => c.cost.value * v) columns x).sum

/-- What a verdict says about a linear program is so. -/
def Verdict.IsRight (columns : List (Column ExtRat)) (rows : List (Row ExtRat)) :
    Verdict ExtRat → Prop
  | .optimal point => ∃ x : List ℚ, point = x.map .fin ∧ Feasible columns rows x
      ∧ ∀ y, Feasible columns rows y → costOn columns x ≤ costOn columns y
  | .infeasible => ∀ x, ¬ Feasible columns rows x
  | .unbounded => (∃ x, Feasible columns rows x)
      ∧ ∀ bound, ∃ x, Feasible columns rows x ∧ costOn columns x < bound
  | .undecided => True

end Simplex

/-! ## What is asked of the solver, and of the relaxation -/

/-- A solver is right about every linear program that the relaxations of a program pose. -/
def Program.SolvedExactly (p : Program ExtRat) (solve : Simplex.Solver ExtRat) : Prop :=
  ∀ (box : Box ExtRat) (rows : List (Simplex.Row ExtRat)), box.length = p.columns.length →
    Program.linearRows p.rows = .ok (some rows) →
    (solve (p.linearColumns box) rows).IsRight (p.linearColumns box) rows

/-- What a relaxation says about a program in a box is so. -/
def Relaxation.IsRight (p : Program ExtRat) (box : Box ExtRat) : Relaxation ExtRat → Prop
  | .solved values objective => ∃ x : List ℚ, values = x.map .fin
      ∧ objective = .fin (p.objectiveOn x) ∧ p.Relaxed box x
      ∧ ∀ y, p.Relaxed box y → p.costOn x ≤ p.costOn y
  | .infeasible => ∀ x, ¬ p.Relaxed box x
  | .unbounded => (∃ x, p.Relaxed box x) ∧ ∀ bound, ∃ x, p.Relaxed box x ∧ p.costOn x < bound

namespace Program

/-! ## Rows -/

theorem linearOn_neg {terms : List (Nat × ExtRat)} (h : ∀ t ∈ terms, t.2 = .fin t.2.value)
    (x : List ℚ) : linearOn (terms.map fun t => (t.1, -t.2)) x = -linearOn terms x := by
  induction terms with
  | nil => rfl
  | cons t terms ih =>
    have hneg : (-t.2).value = -t.2.value := by
      rw [h t List.mem_cons_self]
      rfl
    have ih := ih fun t ht => h t (List.mem_cons_of_mem _ ht)
    rw [linearOn, linearOn] at ih
    rw [linearOn, linearOn, List.map_cons, List.map_cons, List.sum_cons, List.map_cons,
      List.sum_cons, ih, hneg]
    ring

theorem Row.asLinear_holdsOn {r : Row ExtRat} {width : Nat} (h : r.IsRational width)
    (x : List ℚ) : r.asLinear.HoldsOn x ↔ r.HoldsOn x := by
  obtain ⟨name, terms, relation, rhs⟩ := r
  cases relation with
  | atMost => exact Iff.rfl
  | equal => exact Iff.rfl
  | atLeast =>
    have hrhs : (-rhs).value = -rhs.value := by
      rw [show rhs = .fin rhs.value from h.rhs]
      rfl
    show linearOn (terms.map fun t => (t.1, -t.2)) x ≤ (-rhs).value ↔ rhs.value ≤ linearOn terms x
    rw [linearOn_neg (fun t ht => (h.terms t ht).2), hrhs]
    exact neg_le_neg_iff
  | differs => exact absurd rfl h.linear

/-- A row without terms holds everywhere or nowhere, and it is tested which. -/
theorem Row.holdsAtZero_iff {r : Row ExtRat} {width : Nat} (h : r.IsRational width)
    (empty : r.terms = []) (x : List ℚ) : r.holdsAtZero = true ↔ r.HoldsOn x := by
  rw [Row.holdsAtZero, h.rhs, ExtRat.zero_eq, Relation.violation_fin, ExtRat.gt_fin,
    Bool.not_eq_true', decide_eq_false_iff_not, not_lt, Relation.miss_le_zero_iff, Row.HoldsOn,
    Row.lhsOn, empty]
  exact Iff.rfl

/-- The linear rows hold exactly where all rows do; if there are none, some row holds
nowhere. -/
theorem linearRows_spec {rows : List (Row ExtRat)} {width : Nat}
    (h : ∀ r ∈ rows, r.IsRational width) :
    ∃ found, linearRows rows = .ok found ∧ ∀ x, (∀ r ∈ rows, r.HoldsOn x)
      ↔ ∃ linear, found = some linear ∧ ∀ l ∈ linear, Simplex.Row.HoldsOn l x := by
  induction rows with
  | nil => exact ⟨some [], rfl, fun x => by simp⟩
  | cons r rest ih =>
    have hr := h r List.mem_cons_self
    obtain ⟨found, hfound, hspec⟩ := ih fun r hr => h r (List.mem_cons_of_mem _ hr)
    rw [linearRows]
    -- a row without terms is settled here, any other is left to the solver
    by_cases hempty : r.terms = []
    · rw [if_pos (by rw [hempty]; rfl)]
      by_cases hzero : r.holdsAtZero = true
      · refine ⟨found, by rw [if_pos hzero, hfound], fun x => ?_⟩
        rw [List.forall_mem_cons, ← Row.holdsAtZero_iff hr hempty x, and_iff_right hzero, hspec]
      · refine ⟨none, by rw [if_neg hzero], fun x => ?_⟩
        rw [List.forall_mem_cons, ← Row.holdsAtZero_iff hr hempty x]
        simp [hzero]
    · have hlinear : (r.relation == .differs) = false := by
        simpa using hr.linear
      rw [if_neg (by simpa using hempty), hlinear, if_neg Bool.false_ne_true, hfound]
      refine ⟨_, rfl, fun x => ?_⟩
      rw [List.forall_mem_cons, hspec x, ← Row.asLinear_holdsOn hr x]
      cases found with
      | none => simp
      | some linear => simp

/-! ## Columns -/

theorem finiteBounds_of_isOutward {b : Interval ExtRat} (h : b.IsOutward) :
    finiteBounds b = b := by
  obtain ⟨lower, upper⟩ := b
  obtain ⟨rfl | ⟨l, rfl⟩, rfl | ⟨u, rfl⟩⟩ := h <;> rfl

theorem bounds_linearColumns {p : Program ExtRat} {box : Box ExtRat} (h : box.IsOutward) :
    (p.linearColumns box).map (·.bounds) = box := by
  refine List.ext_getElem (by simp [linearColumns]) fun i hi hbox => ?_
  simp only [linearColumns, List.getElem_map, List.getElem_mapIdx]
  exact finiteBounds_of_isOutward (h _ (List.getElem_mem hbox))

theorem costAt_of_lt {p : Program ExtRat} (hp : p.IsRational) {i : Nat}
    (hi : i < p.columns.length) :
    p.costAt i = .fin (p.sense.cost p.columns[i].objective.value) := by
  have hat : p.objectiveAt i = .fin p.columns[i].objective.value := by
    rw [objectiveAt, List.getElem?_eq_getElem hi]
    exact hp.objective _ (List.getElem_mem hi)
  rw [costAt, hat]
  cases p.sense <;> rfl

theorem costs_linearColumns {p : Program ExtRat} (hp : p.IsRational) {box : Box ExtRat}
    (len : box.length = p.columns.length) :
    (p.linearColumns box).map (·.cost.value)
      = p.columns.map fun c => p.sense.cost c.objective.value := by
  refine List.ext_getElem (by simp [linearColumns, len]) fun i hi hcol => ?_
  have hlt : i < p.columns.length := by simpa using hcol
  rw [List.getElem_map, List.getElem_map]
  simp only [linearColumns, List.getElem_mapIdx]
  rw [costAt_of_lt hp hlt, ExtRat.value_fin]

/-- Up to the constant, the cost in the linear program is that of the program. -/
theorem costOn_linearColumns {p : Program ExtRat} (hp : p.IsRational) {box : Box ExtRat}
    (len : box.length = p.columns.length) (x : List ℚ) :
    Simplex.costOn (p.linearColumns box) x + p.sense.cost p.constant.value = p.costOn x := by
  have hsum : Simplex.costOn (p.linearColumns box) x
      = (List.zipWith (fun (c : Column ExtRat) v => p.sense.cost c.objective.value * v)
          p.columns x).sum := by
    have hcosts := costs_linearColumns hp len
    rw [Simplex.costOn, ← List.zipWith_map_left (f := fun c : Simplex.Column ExtRat => c.cost.value)
      (g := fun a v => a * v), hcosts, List.zipWith_map_left]
  rw [hsum, costOn, objectiveOn]
  -- what is to be large has every coefficient negated, so the sum is negated
  clear hsum
  cases p.sense with
  | minimize => rfl
  | maximize =>
    simp only [Sense.cost]
    generalize p.columns = columns
    induction columns generalizing x with
    | nil => simp
    | cons c columns ih =>
      cases x with
      | nil => simp
      | cons v x =>
        rw [List.zipWith_cons_cons, List.zipWith_cons_cons, List.sum_cons, List.sum_cons]
        have := ih x
        linarith

/-! ## The relaxation -/

theorem feasible_iff_relaxed {p : Program ExtRat} {box : Box ExtRat} (hbox : box.IsOutward)
    {linear : List (Simplex.Row ExtRat)} {x : List ℚ}
    (hrows : (∀ l ∈ linear, Simplex.Row.HoldsOn l x) ↔ ∀ r ∈ p.rows, r.HoldsOn x) :
    Simplex.Feasible (p.linearColumns box) linear x ↔ p.Relaxed box x := by
  have hinside : List.Forall₂ (fun (c : Simplex.Column ExtRat) v => c.bounds.Has (.fin v))
      (p.linearColumns box) x ↔ Box.Has box (x.map .fin) := by
    rw [Box.Has, List.forall₂_map_right_iff]
    nth_rewrite 2 [← bounds_linearColumns (p := p) hbox]
    rw [List.forall₂_map_left_iff]
  constructor
  · exact fun h => ⟨hinside.mp h.inside, hrows.mp h.rows⟩
  · exact fun h => ⟨hinside.mpr h.inside, hrows.mpr h.rows⟩

theorem not_has_of_isEmptyBox {box : Box ExtRat} {x : List ExtRat}
    (h : isEmptyBox box = true) : ¬ Box.Has box x := by
  intro hx
  obtain ⟨b, hb, hgt⟩ := List.any_eq_true.mp h
  obtain ⟨i, hi, rfl⟩ := List.mem_iff_getElem.mp hb
  have hat : box[i].Has _ := hx.get hi (hx.length_eq ▸ hi)
  have hle := Number.le_trans_extRat hat.1 hat.2
  have := Number.lt_of_le_of_lt_extRat hle hgt
  rw [Number.lt_irrefl_extRat] at this
  cases this

/-- Without columns the empty list is the only point, and the rows decide. -/
theorem relaxed_nil_iff {p : Program ExtRat} (hp : p.IsRational) (hcols : p.columns = [])
    (x : List ℚ) : p.Relaxed [] x ↔ x = []
      ∧ (p.rows.all fun r => Number.le (r.relation.violation 0 r.rhs) 0) = true := by
  have hrow : ∀ r ∈ p.rows, ∀ y, r.HoldsOn y
      ↔ Number.le (r.relation.violation 0 r.rhs) 0 = true := by
    intro r hr y
    have hrat := hp.rows r hr
    have hempty : r.terms = [] := by
      rw [List.eq_nil_iff_forall_not_mem]
      intro t ht
      have := (hrat.terms t ht).1
      rw [hcols] at this
      exact absurd this (Nat.not_lt_zero _)
    rw [Row.HoldsOn, Row.lhsOn, hempty, hrat.rhs, ExtRat.zero_eq, Relation.violation_fin,
      ExtRat.le_fin, decide_eq_true_iff, Relation.miss_le_zero_iff]
    exact Iff.rfl
  rw [List.all_eq_true]
  constructor
  · intro h
    have hx : x = [] := by simpa [Box.Has] using h.inside
    exact ⟨hx, fun r hr => (hrow r hr x).mp (h.rows r hr)⟩
  · rintro ⟨rfl, h⟩
    exact ⟨.nil, fun r hr => (hrow r hr []).mpr (h r hr)⟩

/-- A verdict about a linear program, read as one about the relaxation. -/
def ofVerdict (p : Program ExtRat) :
    Simplex.Verdict ExtRat → Except (Fault ExtRat) (Relaxation ExtRat)
  | .infeasible => .ok .infeasible
  | .unbounded => .ok .unbounded
  | .undecided => .error (.solverFailed branchAndBoundName "the number of pivots is exhausted")
  | .optimal point => .ok (.solved point (p.objectiveValue point))

section Settled

variable {p : Program ExtRat} {solve : Simplex.Solver ExtRat} {box : Box ExtRat}

theorem relaxBy_of_none (hempty : ¬ isEmptyBox box = true) (hcols : ¬ p.columns.isEmpty = true)
    (hfound : linearRows p.rows = .ok none) : p.relaxBy solve box = .ok .infeasible := by
  rw [relaxBy, if_neg hempty, if_neg hcols, hfound]
  rfl

theorem relaxBy_of_some {linear : List (Simplex.Row ExtRat)} (hempty : ¬ isEmptyBox box = true)
    (hcols : ¬ p.columns.isEmpty = true) (hfound : linearRows p.rows = .ok (some linear)) :
    p.relaxBy solve box = p.ofVerdict (solve (p.linearColumns box) linear) := by
  rw [relaxBy, if_neg hempty, if_neg hcols, hfound]
  cases hverdict : solve (p.linearColumns box) linear <;>
    simp only [bind, Except.bind, hverdict] <;> rfl

end Settled

theorem ofVerdict_isRight {p : Program ExtRat} (hp : p.IsRational) {box : Box ExtRat}
    (len : box.length = p.columns.length) {linear : List (Simplex.Row ExtRat)}
    (feasible : ∀ x, Simplex.Feasible (p.linearColumns box) linear x ↔ p.Relaxed box x)
    {verdict : Simplex.Verdict ExtRat} (right : verdict.IsRight (p.linearColumns box) linear)
    {answer : Relaxation ExtRat} (h : p.ofVerdict verdict = .ok answer) :
    answer.IsRight p box := by
  have hcost := costOn_linearColumns hp len
  cases verdict with
  | optimal point =>
    injection h with h
    obtain ⟨x, rfl, hx, hleast⟩ := right
    rw [← h]
    refine ⟨x, rfl, objectiveValue_map_fin hp x, (feasible x).mp hx, fun y hy => ?_⟩
    have := hleast y ((feasible y).mpr hy)
    linarith [hcost x, hcost y]
  | infeasible =>
    injection h with h
    rw [← h]
    exact fun x hx => right x ((feasible x).mpr hx)
  | unbounded =>
    injection h with h
    obtain ⟨⟨x, hx⟩, hbelow⟩ := right
    rw [← h]
    refine ⟨⟨x, (feasible x).mp hx⟩, fun bound => ?_⟩
    obtain ⟨y, hy, hlt⟩ := hbelow (bound - p.sense.cost p.constant.value)
    exact ⟨y, (feasible y).mp hy, by linarith [hcost y]⟩
  | undecided => cases h

/-- **A relaxation through an exact solver is right.** -/
theorem relaxBy_isRight {p : Program ExtRat} (hp : p.IsRational)
    {solve : Simplex.Solver ExtRat} (exact : p.SolvedExactly solve) {box : Box ExtRat}
    (len : box.length = p.columns.length) (hbox : box.IsOutward) {answer : Relaxation ExtRat}
    (h : p.relaxBy solve box = .ok answer) : answer.IsRight p box := by
  by_cases hempty : isEmptyBox box = true
  · rw [relaxBy, if_pos hempty] at h
    injection h with h
    rw [← h]
    exact fun x hx => not_has_of_isEmptyBox hempty hx.inside
  by_cases hcols : p.columns.isEmpty = true
  · rw [relaxBy, if_neg hempty, if_pos hcols] at h
    rw [List.isEmpty_iff] at hcols
    -- the empty list is the only point there can be
    obtain rfl : box = [] := List.length_eq_zero_iff.mp (by rw [len, hcols]; rfl)
    have hpoints := relaxed_nil_iff hp hcols
    injection h with h
    by_cases hrows : (p.rows.all fun r => Number.le (r.relation.violation 0 r.rhs) 0) = true
    · rw [if_pos hrows] at h
      rw [← h]
      refine ⟨[], rfl, ?_, (hpoints []).mpr ⟨rfl, hrows⟩, fun y hy => ?_⟩
      · rw [hp.constant, objectiveOn, hcols]
        simp
      · rw [((hpoints y).mp hy).1]
    · rw [if_neg hrows] at h
      rw [← h]
      exact fun x hx => hrows ((hpoints x).mp hx).2
  obtain ⟨found, hfound, hspec⟩ := linearRows_spec hp.rows
  cases found with
  | none =>
    rw [relaxBy_of_none hempty hcols hfound] at h
    injection h with h
    rw [← h]
    -- a row without terms does not hold, here or anywhere
    intro x hx
    obtain ⟨linear, hnone, -⟩ := (hspec x).mp hx.rows
    cases hnone
  | some linear =>
    rw [relaxBy_of_some hempty hcols hfound] at h
    refine ofVerdict_isRight hp len (fun x => ?_) (exact box linear len hfound) h
    refine feasible_iff_relaxed hbox ?_
    rw [hspec x]
    simp

/-- It fails only if the solver leaves a linear program undecided. -/
theorem relaxBy_isOk {p : Program ExtRat} (hp : p.IsRational) {solve : Simplex.Solver ExtRat}
    (decided : ∀ columns rows, solve columns rows ≠ .undecided) (box : Box ExtRat) :
    ∃ answer, p.relaxBy solve box = .ok answer := by
  by_cases hempty : isEmptyBox box = true
  · exact ⟨_, by rw [relaxBy, if_pos hempty]⟩
  by_cases hcols : p.columns.isEmpty = true
  · exact ⟨_, by rw [relaxBy, if_neg hempty, if_pos hcols]⟩
  obtain ⟨found, hfound, -⟩ := linearRows_spec hp.rows
  cases found with
  | none => exact ⟨_, relaxBy_of_none hempty hcols hfound⟩
  | some linear =>
    rw [relaxBy_of_some hempty hcols hfound]
    cases hverdict : solve (p.linearColumns box) linear with
    | optimal point => exact ⟨_, rfl⟩
    | infeasible => exact ⟨_, rfl⟩
    | unbounded => exact ⟨_, rfl⟩
    | undecided => exact absurd hverdict (decided _ _)

end Program

/-! ## A program with an exact solver

One column is easily solved: as far up as its bound and the row allow. -/

/-- Maximize a whole `x` from 0 to 10 where `2 x ≤ 5`. -/
def budgetSteps : List (BuildStep ExtRat) :=
  [.declare "x" .integer ⟨.fin 0, .fin 10⟩,
    .constrain none (.ofTerm ⟨⟨1⟩, 0⟩ (.fin 2)) .atMost (.fin 5),
    .optimize (.ofHandle ⟨⟨1⟩, 0⟩) .maximize]

/-- The model that these steps build. -/
def budget : Model ExtRat where
  id := ⟨1⟩
  name := ""
  vars := [⟨"x", .integer, ⟨.fin 0, .fin 10⟩⟩]
  constraints := [⟨"c0", [(⟨⟨1⟩, 0⟩, .fin 2)], .atMost, .fin 5⟩]
  objective := ⟨.maximize, [(⟨⟨1⟩, 0⟩, .fin 1)], .fin 0⟩

/-- The program of the model. -/
def budgetProgram : Program ExtRat where
  columns := [⟨"x", ⟨.fin 0, .fin 10⟩, true, .fin 1⟩]
  rows := [⟨"c0", [(0, .fin 2)], .atMost, .fin 5⟩]
  sense := .maximize
  constant := .fin 0

/-- As far up as the bound of the column and the row allow. -/
def budgetSolver : Simplex.Solver ExtRat := fun columns _ =>
  match columns with
  | [c] =>
    let top := Number.min c.bounds.upper (.fin (5 / 2))
    if Number.le c.bounds.lower top then .optimal [top] else .infeasible
  | _ => .infeasible

theorem budget_built : Model.build ⟨1⟩ "" budgetSteps = .ok budget := by
  with_unfolding_all rfl

theorem budget_lowered :
    Program.ofModel budget branchAndBoundName .mixedInteger = .ok budgetProgram := by
  with_unfolding_all rfl

theorem budget_feasible_iff (c : Simplex.Column ExtRat) (x : List ℚ) :
    Simplex.Feasible [c] [⟨[(0, .fin 2)], false, .fin 5⟩] x
      ↔ ∃ v, x = [v] ∧ c.bounds.Has (.fin v) ∧ v ≤ 5 / 2 := by
  have hrow : ∀ v : ℚ, Simplex.Row.HoldsOn ⟨[(0, .fin 2)], false, .fin 5⟩ [v] ↔ v ≤ 5 / 2 := by
    intro v
    simp only [Simplex.Row.HoldsOn, linearOn]
    norm_num
    constructor <;> intro h <;> linarith
  constructor
  · intro h
    obtain ⟨v, y, hv, hy, rfl⟩ := List.forall₂_cons_left_iff.mp h.inside
    obtain rfl := List.forall₂_nil_left_iff.mp hy
    exact ⟨v, rfl, hv, (hrow v).mp (h.rows _ (List.mem_singleton.mpr rfl))⟩
  · rintro ⟨v, rfl, hv, hle⟩
    refine ⟨.cons hv .nil, fun r hr => ?_⟩
    rw [List.mem_singleton.mp hr]
    exact (hrow v).mpr hle

/-- The lesser of a bound and a finite number is finite, and above what both are. -/
theorem min_fin_spec {u : ExtRat} (hu : u = .posInf ∨ ∃ q : ℚ, u = .fin q) (a : ℚ) :
    ∃ top : ℚ, Number.min u (.fin a) = .fin top ∧ top ≤ a
      ∧ Number.le (.fin top) u = true
      ∧ ∀ v : ℚ, Number.le (.fin v) u = true → v ≤ a → v ≤ top := by
  rcases hu with rfl | ⟨q, rfl⟩
  · exact ⟨a, ExtRat.min_posInf_fin a, le_rfl, rfl, fun v _ hv => hv⟩
  · refine ⟨min q a, by rw [ExtRat.min_fin], min_le_right _ _, ?_, fun v hq ha => ?_⟩
    · rw [ExtRat.le_fin]
      exact decide_eq_true (min_le_left _ _)
    · rw [ExtRat.le_fin, decide_eq_true_iff] at hq
      exact le_min hq ha

theorem budget_solvedExactly : budgetProgram.SolvedExactly budgetSolver := by
  intro box rows len hrows
  obtain rfl : [⟨[(0, .fin 2)], false, .fin 5⟩] = rows := by
    injection hrows with hrows
    injection hrows
  obtain ⟨b, rfl⟩ := List.length_eq_one_iff.mp len
  set c : Simplex.Column ExtRat := ⟨Program.finiteBounds b, .fin (-1)⟩ with hc
  have hcolumns : budgetProgram.linearColumns [b] = [c] := rfl
  have hupper : c.bounds.upper = .posInf ∨ ∃ q : ℚ, c.bounds.upper = .fin q := by
    by_cases hfinite : Number.isFinite b.upper = true
    · refine .inr ⟨b.upper.value, ?_⟩
      rw [hc, Program.finiteBounds, if_pos hfinite]
      exact ExtRat.eq_fin_of_isFinite hfinite
    · refine .inl ?_
      rw [hc, Program.finiteBounds, if_neg hfinite]
      rfl
  obtain ⟨top, htop, hle, hin, hmost⟩ := min_fin_spec hupper (5 / 2)
  -- to cost least the only variable has to be as large as it may
  have hcost : ∀ v : ℚ, Simplex.costOn [c] [v] = -v := by
    intro v
    simp [Simplex.costOn, hc]
  rw [hcolumns]
  show (if Number.le c.bounds.lower (Number.min c.bounds.upper (.fin (5 / 2))) then
    Simplex.Verdict.optimal [Number.min c.bounds.upper (.fin (5 / 2))] else .infeasible).IsRight _ _
  rw [htop]
  split
  · rename_i hlower
    refine ⟨[top], rfl, (budget_feasible_iff c _).mpr ⟨top, rfl, ⟨hlower, hin⟩, hle⟩, ?_⟩
    intro y hy
    obtain ⟨v, rfl, hv, hvle⟩ := (budget_feasible_iff c y).mp hy
    rw [hcost, hcost]
    exact neg_le_neg (hmost v hv.2 hvle)
  · rename_i hlower
    intro x hx
    obtain ⟨v, rfl, hv, hvle⟩ := (budget_feasible_iff c x).mp hx
    have hvtop : Number.le (ExtRat.fin v) (.fin top) = true := by
      rw [ExtRat.le_fin]
      exact decide_eq_true (hmost v hv.2 hvle)
    exact hlower (Number.le_trans_extRat hv.1 hvtop)

end Milp
