/-
What a search over the rationals accepts.

The point of a node that is not split is rounded and becomes the incumbent if it is
better than the one there is. Nothing is checked at that moment: the rounded point may be
one that breaks a row, if no column was left to split. `accepts_snapOn` shows that this
does not happen when relaxations are right. The point of a relaxation lies in the node's
box, whose whole columns end at whole numbers, so a column that is not whole can always
be split; if none is, rounding moves nothing, and the point satisfies the rows as it is.

So every incumbent is inside the declared bounds, whole where it should be and within the
tolerance of every row (`Reachable.keeps`), at every moment of a run.
-/
import Milp.Proofs.Relaxation.Exact
import Milp.Proofs.Search.Subproblems

set_option autoImplicit false

namespace Milp

/-- A point is inside the declared bounds, whole where it should be, and misses no row by
more than the tolerance allows. -/
structure Program.Accepts (p : Program ExtRat) (t : ℚ) (x : List ℚ) : Prop where
  bounds : Box.Has (p.columns.map (·.bounds)) (x.map .fin)
  whole : p.WholeAt (x.map .fin)
  rows : ∀ r ∈ p.rows, r.relation.miss (r.lhsOn x) r.rhs.value ≤ t * max |r.rhs.value| 1

namespace Search

/-! ## Nodes that are not split -/

theorem gap_le_of_branchingColumn? {p : Program ExtRat} {t : ℚ} {x : List ℚ}
    (h : branchingColumn? p (.fin t) (x.map .fin) = none) :
    ∀ i ∈ p.integerColumns, |x.getD i 0 - ExtRat.nearestInt (x.getD i 0)| ≤ t := by
  intro i hi
  have hgap := branchingColumn?_none h i hi
  rw [ExtRat.valueAt_map_fin, ExtRat.integralityGap_fin, ExtRat.gt_fin,
    decide_eq_false_iff_not, not_lt] at hgap
  exact hgap

/-- If no column can be split, all of them are whole. -/
theorem whole_of_leastIntegralColumn? {p : Program ExtRat} {box : Box ExtRat} {x : List ℚ}
    (hbox : IsSubproblem p box) (hx : Box.Has box (x.map .fin))
    (h : leastIntegralColumn? p box (x.map .fin) = none) :
    ∀ i ∈ p.integerColumns, x.getD i 0 = ExtRat.nearestInt (x.getD i 0) := by
  intro i hi
  have hlt : i < box.length := hbox.length ▸ (Program.mem_integerColumns.mp hi).1
  have hin : (boundsAt box i).Has (Number.valueAt (x.map .fin) i) := Box.has_at hx hlt
  rw [ExtRat.valueAt_map_fin] at hin
  refine ExtRat.eq_nearestInt_of_gap fun hgap => ?_
  -- a value away from whole numbers would have been split
  have hproper := Interval.splitsProperly_of_gap (hbox.whole i hi) hin hgap
  have hnot := leastIntegralColumn?_none h i hi (by rw [ExtRat.valueAt_map_fin]; exact hproper)
  rw [ExtRat.valueAt_map_fin, ExtRat.integralityGap_fin, ExtRat.zero_eq, ExtRat.gt_fin,
    decide_eq_false_iff_not] at hnot
  exact hnot hgap

/-- **The rounded point of a node that is not split is acceptable.** -/
theorem accepts_snapOn {p : Program ExtRat} (hp : p.IsRational) {t : ℚ} (ht : 0 ≤ t)
    {box : Box ExtRat} {x : List ℚ} (hbox : IsSubproblem p box) (hx : p.Relaxed box x)
    (unsplit : splitColumn? p (.fin t) box (x.map .fin) = none) :
    p.Accepts t (snapOn p x) := by
  have len := hbox.length_of_has hx.inside
  refine ⟨has_bounds_of_has_rootBox (hbox.inside _ (has_snapOn hbox hx.inside)),
    wholeAt_snapOn len, fun r hr => ?_⟩
  -- either the rounded point was tested, or no column was left and rounding moves nothing
  rcases (splitColumn?_none unsplit).2 with hrows | hleast
  · rw [snap_map_fin] at hrows
    exact (Program.Row.holds_map_fin (hp.rows r hr) _ t).mp (List.all_eq_true.mp hrows r hr)
  · have hself := snapOn_eq_self len (whole_of_leastIntegralColumn? hbox hx.inside hleast)
    have hzero := (Relation.miss_le_zero_iff _ _ _).mpr (hx.rows r hr)
    rw [hself]
    exact hzero.trans (mul_nonneg ht (le_max_of_le_right zero_le_one))

/-! ## The invariant -/

/-- The boxes of the stack are subproblems, and the incumbent is acceptable. -/
structure Keeps (p : Program ExtRat) (t : ℚ) (s : State ExtRat) : Prop where
  boxes : ∀ e ∈ s.stack, IsSubproblem p e.box
  incumbent : ∀ best, s.incumbent = some best → ∃ x : List ℚ, best.values = x.map .fin
    ∧ best.objective = .fin (p.objectiveOn x) ∧ p.Accepts t x

theorem keeps_initial {p : Program ExtRat} (hp : p.IsRational) (t : ℚ) :
    Keeps p t (.initial p) where
  boxes e he := by
    obtain rfl : e = ⟨SearchTree.rootId, rootBox p⟩ := List.mem_singleton.mp he
    exact isSubproblem_rootBox hp
  incumbent best hbest := by cases hbest

theorem stack_split {p : Program ExtRat} {s : State ExtRat} {here : Pending ExtRat}
    {n : Node ExtRat} (there : s.tree.get? here.node = some n) (leaf : n.IsLeaf)
    (x : List ℚ) (objective : ExtRat) (column : Nat) :
    (split p (s.recorded here.node (x.map .fin) objective) here column
        (Number.valueAt (x.map .fin) column)).stack
      = halves p here.box column (.fin (x.getD column 0)) s.tree.size ++ s.stack := by
  rw [(branches_split p here (x.map .fin) objective column _ there leaf).stack,
    ExtRat.valueAt_map_fin]

/-- The column of a split is one of the box, and its value is not whole. -/
theorem split_spec {p : Program ExtRat} {t : ℚ} (ht : 0 ≤ t) {box : Box ExtRat}
    (hbox : IsSubproblem p box) {x : List ℚ} {column : Nat}
    (chosen : splitColumn? p (.fin t) box (x.map .fin) = some column) :
    column ∈ p.integerColumns ∧ column < box.length
      ∧ Number.gt (Number.integralityGap (ExtRat.fin (x.getD column 0))) 0 = true := by
  obtain ⟨hcol, hgap⟩ := splitColumn?_some (ExtRat.zero_le_fin ht) chosen
  rw [ExtRat.valueAt_map_fin] at hgap
  exact ⟨hcol, hbox.length ▸ (Program.mem_integerColumns.mp hcol).1, hgap⟩

/-- **One step.** The boxes stay subproblems, and a new incumbent is acceptable. -/
theorem Concluded.keeps {p : Program ExtRat} (hp : p.IsRational) {t : ℚ} (ht : 0 ≤ t)
    {s next : State ExtRat} {here : Pending ExtRat} {n : Node ExtRat}
    {relaxation : Relaxation ExtRat} (h : Keeps p t s) (hbox : IsSubproblem p here.box)
    (there : s.tree.get? here.node = some n) (leaf : n.IsLeaf)
    (right : relaxation.IsRight p here.box)
    (hc : Concluded p (.fin t) s here relaxation next) : Keeps p t next := by
  cases hc with
  | infeasible => exact ⟨h.boxes, h.incumbent⟩
  | unbounded below => exact ⟨h.boxes, h.incumbent⟩
  | pruned values objective worse => exact ⟨h.boxes, h.incumbent⟩
  | integral values objective better unsplit fails => exact ⟨h.boxes, h.incumbent⟩
  | branched values objective column better chosen =>
    obtain ⟨x, rfl, -, -, -⟩ := right
    obtain ⟨-, hlt, -⟩ := split_spec ht hbox chosen
    refine ⟨fun e he => ?_, by rw [incumbent_split]; exact h.incumbent⟩
    rw [stack_split there leaf, List.mem_append] at he
    rcases he with he | he
    · exact hbox.halves hlt e he
    · exact h.boxes e he
  | accepted values objective better unsplit improves =>
    obtain ⟨x, rfl, -, hx, -⟩ := right
    refine ⟨h.boxes, fun best hbest => ?_⟩
    obtain rfl : _ = best := Option.some.inj hbest
    refine ⟨snapOn p x, snap_map_fin p x, ?_, accepts_snapOn hp ht hbox hx unsplit⟩
    rw [snap_map_fin]
    exact Program.objectiveValue_map_fin hp _

section Runs

variable {p : Program ExtRat} {limits : Limits ExtRat} {solve : Simplex.Solver ExtRat}
  {watch : Nat → Sighting} {t : ℚ}

/-- **One turn of the loop.** The node on top of the stack is a leaf, its box a subproblem,
and its relaxation is right. -/
theorem Keeps.turn (hp : p.IsRational) (ht : 0 ≤ t) (htol : limits.tolerance = .fin t)
    (exact : p.SolvedExactly solve) {s : State ExtRat} {here : Pending ExtRat}
    {rest : List (Pending ExtRat)} {relaxation : Relaxation ExtRat} (h : Keeps p t s)
    (before : Reachable p limits (p.relaxBy solve) watch s) (hstack : s.stack = here :: rest)
    (horacle : p.relaxBy solve here.box = .ok relaxation) :
    ∃ n, s.tree.get? here.node = some n ∧ n.IsLeaf ∧ IsSubproblem p here.box
      ∧ relaxation.IsRight p here.box ∧ Keeps p t (s.taken rest) := by
  have hnonneg : Number.le 0 limits.tolerance = true := htol ▸ ExtRat.zero_le_fin ht
  obtain ⟨n, hn, hleaf, -⟩ := (before.tracks_and_partitions hnonneg).1.top_pending hstack
  have hbox := h.boxes here (hstack ▸ List.mem_cons_self)
  have hrest : Keeps p t (s.taken rest) :=
    ⟨fun e he => h.boxes e (hstack ▸ List.mem_cons_of_mem _ he), h.incumbent⟩
  exact ⟨n, hn, hleaf, hbox,
    Program.relaxBy_isRight hp exact hbox.length hbox.outward horacle, hrest⟩

/-- **Every incumbent of every run is acceptable**, and every box a subproblem. -/
theorem Reachable.keeps (hp : p.IsRational) (ht : 0 ≤ t) (htol : limits.tolerance = .fin t)
    (exact : p.SolvedExactly solve) {s : State ExtRat}
    (reached : Reachable p limits (p.relaxBy solve) watch s) : Keeps p t s := by
  refine reached.turns (keeps_initial hp t)
    fun s here rest relaxation next before ih hstack horacle hc => ?_
  obtain ⟨n, hn, hleaf, hbox, hright, hrest⟩ := ih.turn hp ht htol exact before hstack horacle
  rw [htol] at hc
  exact hc.keeps hp ht hrest hbox hn hleaf hright

end Runs

end Search

end Milp
