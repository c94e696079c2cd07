/-
Conclusive answers are right.

A search that runs to its end says either that its incumbent is optimal or that there is
no point at all. Why it may say so is one invariant of the loop, `Covers`: every point of
the problem still lies in a box on the stack, or the incumbent matches it. When the stack
is empty, the second is all that is left.

How closely an incumbent matches a point is the sum of what is given away on the way.

* A node is pruned, or its point not taken, when it is not better than the incumbent by
  more than the tolerance `t`.
* A point is rounded when each of its whole columns is within `t` of a whole number, and
  that costs up to `t` times the weight of the whole columns.

Nothing else is lost: a split keeps every whole point of the box, and a later incumbent
is better than the one it replaces. A node without a bound could lose points. It does not
occur below the root, because its box lies in one whose relaxation has an optimum.
-/
import Milp.Proofs.Search.Acceptance

set_option autoImplicit false

namespace Milp.Search

/-! ## Matching -/

/-- The incumbent costs no more than a point, up to what a search may give away. -/
def Matched (p : Program ExtRat) (t : ℚ) (incumbent : Option (Incumbent ExtRat)) (q : List ℚ) :
    Prop :=
  ∃ best, incumbent = some best
    ∧ p.sense.cost best.objective.value ≤ p.costOn q + t * (1 + p.integerWeight)

/-- What does not beat the incumbent costs no less, up to the tolerance. -/
theorem cost_le_of_not_beats {p : Program ExtRat} {t a : ℚ}
    {incumbent : Option (Incumbent ExtRat)}
    (finite : ∀ best, incumbent = some best → best.objective = .fin best.objective.value)
    (h : beats p (.fin t) incumbent (.fin a) = false) :
    ∃ best, incumbent = some best ∧ p.sense.cost best.objective.value ≤ p.sense.cost a + t := by
  cases incumbent with
  | none => cases h
  | some best =>
    rw [beats, finite best rfl, ← Bool.not_eq_true, Sense.improves_fin_iff, not_lt] at h
    exact ⟨best, rfl, by linarith⟩

theorem cost_lt_of_beats {p : Program ExtRat} {t a : ℚ} (ht : 0 ≤ t) {best : Incumbent ExtRat}
    (finite : best.objective = .fin best.objective.value)
    (h : beats p (.fin t) (some best) (.fin a) = true) :
    p.sense.cost a < p.sense.cost best.objective.value := by
  rw [beats, finite, Sense.improves_fin_iff] at h
  linarith

/-- Rounding costs at most the tolerance times the weight of the whole columns. -/
theorem costOn_snapOn_le {p : Program ExtRat} {t : ℚ} {x : List ℚ}
    (len : x.length = p.columns.length)
    (unsplit : branchingColumn? p (.fin t) (x.map .fin) = none) :
    p.costOn (snapOn p x) ≤ p.costOn x + t * p.integerWeight := by
  have hmoved := abs_le.mp
    (abs_objectiveOn_snapOn_sub_le len (gap_le_of_branchingColumn? unsplit))
  rw [Program.costOn, Program.costOn]
  cases p.sense with
  | minimize =>
    show p.objectiveOn (snapOn p x) ≤ p.objectiveOn x + t * p.integerWeight
    linarith [hmoved.2]
  | maximize =>
    show -p.objectiveOn (snapOn p x) ≤ -p.objectiveOn x + t * p.integerWeight
    linarith [hmoved.1]

theorem Keeps.finite {p : Program ExtRat} {t : ℚ} {s : State ExtRat} (h : Keeps p t s) :
    ∀ best, s.incumbent = some best → best.objective = .fin best.objective.value := by
  intro best hbest
  obtain ⟨x, -, hobj, -⟩ := h.incumbent best hbest
  rw [hobj, ExtRat.value_fin]

/-! ## The invariant -/

/-- The relaxation in a box has a bound. -/
def IsBounded (p : Program ExtRat) (box : Box ExtRat) : Prop :=
  ∃ bound, ∀ x, p.Relaxed box x → bound ≤ p.costOn x

/-- Every point of the problem is in a box of the stack or matched by the incumbent; the
relaxations below the root have a bound. -/
structure Covers (p : Program ExtRat) (t : ℚ) (s : State ExtRat) : Prop where
  bounded : ∀ e ∈ s.stack, e.node = SearchTree.rootId ∨ IsBounded p e.box
  points : ∀ q, p.Admits q →
    (∃ e ∈ s.stack, Box.Has e.box (q.map .fin)) ∨ Matched p t s.incumbent q

theorem covers_initial (p : Program ExtRat) (t : ℚ) : Covers p t (.initial p) where
  bounded e he := by
    obtain rfl : e = ⟨SearchTree.rootId, rootBox p⟩ := List.mem_singleton.mp he
    exact .inl rfl
  points q hq := .inl ⟨_, List.mem_singleton.mpr rfl, has_rootBox_of_admits hq⟩

section Steps

variable {p : Program ExtRat} {t : ℚ} {s next : State ExtRat} {here : Pending ExtRat}
  {n : Node ExtRat} {relaxation : Relaxation ExtRat}

theorem Concluded.mem_stack (there : s.tree.get? here.node = some n) (leaf : n.IsLeaf)
    (right : relaxation.IsRight p here.box)
    (hc : Concluded p (.fin t) s here relaxation next) {e : Pending ExtRat}
    (he : e ∈ s.stack) : e ∈ next.stack := by
  cases hc with
  | branched values objective column better chosen =>
    obtain ⟨x, rfl, -, -, -⟩ := right
    rw [stack_split there leaf]
    exact List.mem_append_right _ he
  | _ => exact he

/-- A point that was matched stays matched: a new incumbent is a better one. -/
theorem Concluded.matched (hp : p.IsRational) (ht : 0 ≤ t) (hk : Keeps p t s)
    (right : relaxation.IsRight p here.box)
    (hc : Concluded p (.fin t) s here relaxation next) {q : List ℚ}
    (hq : Matched p t s.incumbent q) : Matched p t next.incumbent q := by
  cases hc with
  | branched values objective column better chosen =>
    rw [incumbent_split]
    exact hq
  | accepted values objective better unsplit improves =>
    obtain ⟨x, rfl, -, -, -⟩ := right
    obtain ⟨best, hbest, hle⟩ := hq
    rw [hbest, snap_map_fin, Program.objectiveValue_map_fin hp] at improves
    have hlt := cost_lt_of_beats ht (hk.finite best hbest) improves
    refine ⟨_, rfl, ?_⟩
    show p.sense.cost (p.objectiveValue (snap p (x.map .fin))).value ≤ _
    rw [snap_map_fin, Program.objectiveValue_map_fin hp, ExtRat.value_fin]
    exact hlt.le.trans hle
  | _ => exact hq

/-- **A node is closed for a sound reason.** A point of the problem in the box of the
node is in a half of it afterwards, or the incumbent matches it. -/
theorem Concluded.covers_here (hp : p.IsRational) (ht : 0 ≤ t) (hk : Keeps p t s)
    (hbox : IsSubproblem p here.box)
    (bounded : here.node = SearchTree.rootId ∨ IsBounded p here.box)
    (there : s.tree.get? here.node = some n) (leaf : n.IsLeaf)
    (right : relaxation.IsRight p here.box)
    (hc : Concluded p (.fin t) s here relaxation next) {q : List ℚ} (hq : p.Admits q)
    (hin : Box.Has here.box (q.map .fin)) :
    (∃ e ∈ next.stack, Box.Has e.box (q.map .fin)) ∨ Matched p t next.incumbent q := by
  have hrelaxed : p.Relaxed here.box q := ⟨hin, hq.rows⟩
  have hweight : 0 ≤ t * p.integerWeight := mul_nonneg ht p.integerWeight_nonneg
  cases hc with
  | infeasible => exact absurd hrelaxed (right q)
  | unbounded below =>
    -- the box lies in one whose relaxation has an optimum
    obtain ⟨bound, hbound⟩ := bounded.resolve_left below
    obtain ⟨x, hx, hlt⟩ := right.2 bound
    exact absurd (hbound x hx) (not_le.mpr hlt)
  | pruned values objective worse =>
    -- no point of the node costs less than the relaxation, which is not good enough
    obtain ⟨x, -, rfl, -, hleast⟩ := right
    obtain ⟨best, hbest, hle⟩ := cost_le_of_not_beats hk.finite worse
    have hq' : p.sense.cost (p.objectiveOn x) ≤ p.costOn q := hleast q hrelaxed
    exact .inr ⟨best, hbest, by linarith⟩
  | branched values objective column better chosen =>
    obtain ⟨x, rfl, -, -, -⟩ := right
    obtain ⟨hcol, hlt, hgap⟩ := split_spec ht hbox chosen
    obtain ⟨e, he, hx⟩ := exists_mem_halves (p := p) s.tree.size hin hlt hgap
      (hq.whole column hcol)
    refine .inl ⟨e, ?_, hx⟩
    rw [stack_split there leaf]
    exact List.mem_append_left _ he
  | accepted values objective better unsplit improves =>
    obtain ⟨x, rfl, -, hx, hleast⟩ := right
    have len := hbox.length_of_has hx.inside
    have hsnap := costOn_snapOn_le len (splitColumn?_none unsplit).1
    have hq' := hleast q hrelaxed
    -- rounding costs up to the weight, and the rounded point is the incumbent
    refine .inr ⟨_, rfl, ?_⟩
    show p.sense.cost (p.objectiveValue (snap p (x.map .fin))).value ≤ _
    rw [snap_map_fin, Program.objectiveValue_map_fin hp, ExtRat.value_fin]
    show p.costOn (snapOn p x) ≤ _
    linarith
  | integral values objective better unsplit fails =>
    obtain ⟨x, rfl, -, hx, hleast⟩ := right
    have len := hbox.length_of_has hx.inside
    have hsnap := costOn_snapOn_le len (splitColumn?_none unsplit).1
    have hq' := hleast q hrelaxed
    -- rounding costs up to the weight, and the test that fails up to the tolerance
    rw [snap_map_fin, Program.objectiveValue_map_fin hp] at fails
    obtain ⟨best, hbest, hle⟩ := cost_le_of_not_beats hk.finite fails
    have hle' : p.sense.cost best.objective.value ≤ p.costOn (snapOn p x) + t := hle
    exact .inr ⟨best, hbest, by linarith⟩

/-- The entries of the stack after a step are old ones, or lie in a box with a bound. -/
theorem Concluded.bounded (ht : 0 ≤ t) (hbox : IsSubproblem p here.box)
    (old : ∀ e ∈ s.stack, e.node = SearchTree.rootId ∨ IsBounded p e.box)
    (there : s.tree.get? here.node = some n) (leaf : n.IsLeaf)
    (right : relaxation.IsRight p here.box)
    (hc : Concluded p (.fin t) s here relaxation next) :
    ∀ e ∈ next.stack, e.node = SearchTree.rootId ∨ IsBounded p e.box := by
  cases hc with
  | branched values objective column better chosen =>
    obtain ⟨x, rfl, -, hx, hleast⟩ := right
    obtain ⟨-, hlt, hgap⟩ := split_spec ht hbox chosen
    intro e he
    rw [stack_split there leaf, List.mem_append] at he
    rcases he with he | he
    -- a half lies in the box, so the optimum of the box bounds it
    · refine .inr ⟨p.costOn x, fun y hy => hleast y ⟨?_, hy.rows⟩⟩
      exact has_of_mem_halves hbox.isProper hlt hgap he hy.inside
    · exact old e he
  | _ => exact old

end Steps

section Runs

variable {p : Program ExtRat} {limits : Limits ExtRat} {solve : Simplex.Solver ExtRat}
  {watch : Nat → Sighting} {t : ℚ}

/-- No point of the problem is lost at any moment of a run. -/
theorem Reachable.covers (hp : p.IsRational) (ht : 0 ≤ t) (htol : limits.tolerance = .fin t)
    (exact : p.SolvedExactly solve) {s : State ExtRat}
    (reached : Reachable p limits (p.relaxBy solve) watch s) : Covers p t s := by
  refine reached.turns (covers_initial p t)
    fun s here rest relaxation next before ih hstack horacle hc => ?_
  obtain ⟨n, hn, hleaf, hbox, hright, hrest⟩ :=
    (before.keeps hp ht htol exact).turn hp ht htol exact before hstack horacle
  rw [htol] at hc
  have hbounded : ∀ e ∈ (s.taken rest).stack, e.node = SearchTree.rootId ∨ IsBounded p e.box :=
    fun e he => ih.bounded e (hstack ▸ List.mem_cons_of_mem _ he)
  refine ⟨hc.bounded ht hbox hbounded hn hleaf hright, fun q hq => ?_⟩
  rcases ih.points q hq with ⟨e, he, hin⟩ | hmatched
  · rw [hstack] at he
    -- the point was in the node that is concluded, or in one that stays on the stack
    rcases List.mem_cons.mp he with rfl | he
    · have hhere := ih.bounded e (hstack ▸ List.mem_cons_self)
      exact hc.covers_here hp ht hrest hbox hhere hn hleaf hright hq hin
    · exact .inl ⟨e, hc.mem_stack (s := s.taken rest) hn hleaf hright he, hin⟩
  · exact .inr (hc.matched hp ht hrest hright hmatched)

end Runs

/-- **Conclusive answers are right.** For every program of a built model with finite
right-hand sides, every exact solver, every tolerance `t` that is not negative, and
however the search is limited and watched: if it answers with an optimal point, no point
of the problem beats that one by more than `t * (1 + w)`, where `w` is the weight of the
whole columns; and if it answers that there is no point, there is none. -/
theorem conclusive_answers_right {id : ModelId} {name : String}
    {steps : List (BuildStep ExtRat)} {m : Model ExtRat} {p : Program ExtRat}
    (built : Model.build id name steps = .ok m)
    (lowered : Program.ofModel m branchAndBoundName .mixedInteger = .ok p)
    (finite : ∀ r ∈ p.rows, Number.isFinite r.rhs = true)
    (solve : Simplex.Solver ExtRat) (exact : p.SolvedExactly solve)
    (t : ℚ) (nonneg : 0 ≤ t) (limits : Limits ExtRat) (tolerance : limits.tolerance = .fin t)
    (watch : Nat → Sighting) (bound : Nat) (answer : Answer ExtRat)
    (answered : run p limits (p.relaxBy solve) watch bound = .answered answer) :
    (answer.status = .optimal → ∃ x : List ℚ, answer.values = some (x.map .fin)
      ∧ ∀ q, p.Admits q → p.sense.improves (ExtRat.fin (p.objectiveOn q))
          (.fin (p.objectiveOn x)) (.fin (t * (1 + p.integerWeight))) = false)
    ∧ (answer.status = .infeasible → ∀ q, ¬ p.Admits q) := by
  have hp := Program.isRational_of_ofModel (Model.isSound_of_build built) lowered finite
  constructor
  · intro hstatus
    obtain ⟨s, reached, hstack, hvalues, hsome⟩ := conclusive_of_answered answered (.inl hstatus)
    have hcovers := reached.covers hp nonneg tolerance exact
    have hkeeps := reached.keeps hp nonneg tolerance exact
    cases hbest : s.incumbent with
    | none => rw [hstatus, hbest] at hsome; cases hsome
    | some best =>
      obtain ⟨x, hx, hobj, -⟩ := hkeeps.incumbent best hbest
      refine ⟨x, by rw [hvalues, hbest, Option.map_some, hx], fun q hq => ?_⟩
      rcases hcovers.points q hq with ⟨e, he, -⟩ | ⟨other, hother, hle⟩
      · rw [hstack] at he
        cases he
      · obtain rfl : best = other := Option.some.inj (hbest.symm.trans hother)
        rw [hobj, ExtRat.value_fin] at hle
        rw [← Bool.not_eq_true, Sense.improves_fin_iff, not_lt]
        have : p.sense.cost (p.objectiveOn q) = p.costOn q := rfl
        linarith
  · intro hstatus q hq
    obtain ⟨s, reached, hstack, -, hsome⟩ := conclusive_of_answered answered (.inr hstatus)
    rcases (reached.covers hp nonneg tolerance exact).points q hq with ⟨e, he, -⟩ | ⟨best, hbest, -⟩
    · rw [hstack] at he
      cases he
    · rw [hstatus, hbest] at hsome
      cases hsome

/-- The search of `budget` splits the root at `5 / 2` and ends with the point `2`. -/
theorem conclusive_answers_right_budget :
    ∃ answer, run budgetProgram exactLimits (budgetProgram.relaxBy budgetSolver)
        (fun _ => ⟨false, .zero⟩) 4 = .answered answer
      ∧ answer.status = .optimal
      ∧ ∃ x : List ℚ, answer.values = some (x.map .fin) ∧ x = [2]
        ∧ ∀ q, budgetProgram.Admits q → Sense.maximize.improves
            (ExtRat.fin (budgetProgram.objectiveOn q)) (.fin (budgetProgram.objectiveOn x))
            (.fin (0 * (1 + budgetProgram.integerWeight))) = false := by
  have hrun : (run budgetProgram exactLimits (budgetProgram.relaxBy budgetSolver)
      (fun _ => ⟨false, .zero⟩) 4).answer?.map (fun answer => (answer.status, answer.values))
      = some (.optimal, some [.fin 2]) := by decide +kernel
  obtain ⟨answer, hanswer, heq⟩ := Option.map_eq_some_iff.mp hrun
  obtain ⟨hstatus, hvalues⟩ := Prod.mk.inj heq
  have hrun := Run.eq_answered_of_answer? hanswer
  obtain ⟨x, hx, hbest⟩ := (conclusive_answers_right budget_built budget_lowered
    (by decide +kernel) budgetSolver budget_solvedExactly 0 le_rfl exactLimits rfl _ 4 answer
    hrun).1 hstatus
  refine ⟨answer, hrun, hstatus, x, hx, ?_, hbest⟩
  have : x.map ExtRat.fin = [2].map ExtRat.fin := Option.some.inj (hx.symm.trans hvalues)
  exact List.map_injective_iff.mpr (fun _ _ => ExtRat.fin.inj) this

end Milp.Search
