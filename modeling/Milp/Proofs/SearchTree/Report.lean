/-
Which points a report shows.

A report has a title line for every node. Below it come the values at the node and, if the
model has constraints, the room that each leaves there, or nothing. Whether they come is
decided by counting: a node has a point if it has as many values as the model has variables.

For the trees of searches this count is right (`pointed_of_returned`) as long as there is a
variable. A solved node has a value for every variable, a node that was not solved has none.
Where there are no variables, no values are as many as there should be, so every node passes
for one with a point (`hasPoint_iff`), also one that is infeasible.

A constraint takes the values it needs by position. They are all there where the room is
shown, since the terms of a model belong to its variables.
-/
import Milp.SearchTree.Rendering
import Milp.Proofs.Model.WellFormed
import Milp.Proofs.Relaxation.Exact
import Milp.Proofs.Search.Points

set_option autoImplicit false

namespace Milp.SearchTree

variable {α : Type} [Number α]

/-! ## Lines -/

/-- The line that says what a node is and which cut made it. -/
def titleLine (m : Model α) (n : Node α) : String :=
  heading n (match n.lastCut? with
    | some cut => " (added " ++ reportCut m cut ++ ")"
    | none => "")

def valuesLine (m : Model α) (n : Node α) : String :=
  indent n ++ "  values: " ++ reportValues m n

def slacksLine (m : Model α) (n : Node α) : String :=
  indent n ++ "  slacks: " ++ reportSlacks m n

/-- The lines of a point: its values and, if there are constraints, their slacks. -/
def pointLines (m : Model α) (n : Node α) : List String :=
  valuesLine m n :: if m.constraints.isEmpty then [] else [slacksLine m n]

theorem reportNode_eq (m : Model α) (n : Node α) :
    reportNode m n = titleLine m n :: if hasPoint m n then pointLines m n else [] := by
  rw [reportNode, titleLine, pointLines, valuesLine, slacksLine]
  cases hasPoint m n <;> cases m.constraints.isEmpty <;> rfl

omit [Number α] in
/-- **Who passes for a node with a point**: a solved node, and every node of a model without
variables. -/
theorem hasPoint_iff {m : Model α} {n : Node α} (h : n.Pointed m.vars.length) :
    hasPoint m n = true ↔ n.relaxation.isSome = true ∨ m.vars = [] := by
  rw [hasPoint, beq_iff_eq, h.length]
  split
  · next hsolved => simp [hsolved]
  · next hunsolved => simp [hunsolved, eq_comm (a := 0)]

/-! ## Reports -/

/-- What the report on a tree shows of its nodes. -/
structure ShowsPoints (m : Model α) (t : SearchTree α) : Prop where
  /-- An optimum is recorded for the nodes that were solved. -/
  relaxed : ∀ n ∈ t.nodes, n.relaxation.isSome = n.outcome.isSolved
  /-- The lines of a point come with these nodes; without variables they come with all. -/
  lines : ∀ n ∈ t.nodes, reportNode m n
    = titleLine m n :: if n.relaxation.isSome || m.vars.isEmpty then pointLines m n else []
  /-- Where they come, every value that a constraint reaches for is there. -/
  inRange : ∀ n ∈ t.nodes, hasPoint m n = true →
    ∀ c ∈ m.constraints, ∀ u ∈ c.terms, u.1.index < n.values.length

omit [Number α] in
theorem Each.of_mem {P : Node α → Prop} {t : SearchTree α} (each : t.Each P) {n : Node α}
    (hn : n ∈ t.nodes) : P n := by
  obtain ⟨j, hj⟩ := Array.mem_iff_getElem?.mp hn
  exact each j n hj

theorem showsPoints_of_pointed {m : Model α} {t : SearchTree α} (wellFormed : m.IsWellFormed)
    (pointed : t.Each (Node.Pointed m.vars.length)) : t.ShowsPoints m where
  relaxed n hn := (pointed.of_mem hn).relaxed
  lines n hn := by
    have hshown : hasPoint m n = (n.relaxation.isSome || m.vars.isEmpty) := by
      rw [Bool.eq_iff_iff, hasPoint_iff (pointed.of_mem hn), Bool.or_eq_true, List.isEmpty_iff]
    rw [reportNode_eq, hshown]
  inRange n hn hpoint c hc u hu := by
    have howned := wellFormed.constraints c hc u hu
    rw [Model.owns, Bool.and_eq_true, decide_eq_true_iff] at howned
    rw [hasPoint, beq_iff_eq] at hpoint
    exact hpoint ▸ howned.2

/-- **The report shows the points of solved nodes**, and of a model without variables it shows
the empty point of every node. The model may have come about by any calls, and the search may
use any solver that gives a value for every column, and end in any way. -/
theorem showsPoints_of_returned (id : ModelId) (name : String) (steps : List (BuildStep α))
    {p : Program α}
    (lowered : Program.ofModel ((Model.empty id name).attemptAll steps) branchAndBoundName
      .mixedInteger = .ok p)
    {solve : Simplex.Solver α} (fills : Simplex.FillsColumns solve) (limits : Limits α)
    (watch : Nat → Search.Sighting) (bound : Nat) {answer : Answer α} {t : SearchTree α}
    (returned : (Backend.conductOf
      (Search.run p limits (p.relaxBy solve) watch bound)).ending = .returned answer)
    (recorded : answer.tree = some t) :
    t.ShowsPoints ((Model.empty id name).attemptAll steps) := by
  have hpointed := Search.pointed_of_returned (Search.fits_relaxBy fills) returned recorded
  obtain ⟨-, rfl⟩ := Program.ofModel_eq_ok_iff.mp lowered
  rw [Program.columnsOf, List.length_mapIdx] at hpointed
  exact showsPoints_of_pointed ((Model.isWellFormed_empty id name).attemptAll steps) hpointed

/-- A search over three nodes: the root and one below it are solved, the other is not. -/
theorem showsPoints_of_returned_budget :
    ∃ answer t, (Backend.conductOf (Search.run budgetProgram Search.exactLimits
          (budgetProgram.relaxBy (Simplex.solve 0)) (fun _ => ⟨false, .zero⟩) 4)).ending
        = .returned answer
      ∧ answer.tree = some t ∧ t.nodes.toList.map (·.outcome) = [.branched, .incumbent, .infeasible]
      ∧ t.ShowsPoints budget := by
  have hrun : (Search.run budgetProgram Search.exactLimits
        (budgetProgram.relaxBy (Simplex.solve 0)) (fun _ => ⟨false, .zero⟩) 4).answer?.map
          (fun answer => answer.tree.map fun t => t.nodes.toList.map (·.outcome))
      = some (some [.branched, .incumbent, .infeasible]) := by decide +kernel
  obtain ⟨answer, hanswer, houtcomes⟩ := Option.map_eq_some_iff.mp hrun
  obtain ⟨t, ht, houtcomes⟩ := Option.map_eq_some_iff.mp houtcomes
  have hbuilt : (Model.empty ⟨1⟩ "").attemptAll budgetSteps = budget := by with_unfolding_all rfl
  have hreturned : (Backend.conductOf (Search.run budgetProgram Search.exactLimits
      (budgetProgram.relaxBy (Simplex.solve 0)) (fun _ => ⟨false, .zero⟩) 4)).ending
        = .returned answer := by
    rw [Search.Run.eq_answered_of_answer? hanswer]
    rfl
  refine ⟨answer, t, hreturned, ht, houtcomes, ?_⟩
  rw [← hbuilt]
  exact showsPoints_of_returned ⟨1⟩ "" budgetSteps (hbuilt ▸ budget_lowered)
    (Simplex.fillsColumns_solve 0) Search.exactLimits _ 4 hreturned ht

/-! ## No variables -/

/-- Nothing is at least one. -/
def groundless : Model ExtRat where
  id := ⟨1⟩
  name := ""
  vars := []
  constraints := [⟨"c0", [], .atLeast, .fin 1⟩]
  objective := .initial

def groundlessProgram : Program ExtRat where
  columns := []
  rows := [⟨"c0", [], .atLeast, .fin 1⟩]
  sense := .minimize
  constant := .fin 0

/-- The root of this model is infeasible and has no optimum. It is reported with the values of
a point and the slack of the constraint there. -/
theorem showsPoints_groundless :
    Model.build ⟨1⟩ "" [.constrain none .zero .atLeast (.fin 1)] = .ok groundless
      ∧ Program.ofModel groundless branchAndBoundName .mixedInteger = .ok groundlessProgram
      ∧ ∃ answer t n, Search.run groundlessProgram Search.exactLimits (groundlessProgram.relax 0)
            (fun _ => ⟨false, .zero⟩) 4 = .answered answer
          ∧ answer.tree = some t ∧ t.nodes.toList = [n]
          ∧ n.outcome = .infeasible ∧ n.relaxation = none
          ∧ reportNode groundless n
              = ["node 0 [Infeasible]", "  values: ", "  slacks: c0 = 1"] := by
  refine ⟨by with_unfolding_all rfl, by with_unfolding_all rfl, ?_⟩
  have hrun : (Search.run groundlessProgram Search.exactLimits (groundlessProgram.relax 0)
        (fun _ => ⟨false, .zero⟩) 4).answer?.map
          (fun answer => answer.tree.map fun t => t.nodes.toList.map fun n =>
            (n.outcome, n.relaxation, reportNode groundless n))
      = some (some [(.infeasible, none,
          ["node 0 [Infeasible]", "  values: ", "  slacks: c0 = 1"])]) := by decide +kernel
  obtain ⟨answer, hanswer, hnodes⟩ := Option.map_eq_some_iff.mp hrun
  obtain ⟨t, ht, hnodes⟩ := Option.map_eq_some_iff.mp hnodes
  obtain ⟨n, hn, hnode⟩ := List.map_eq_singleton_iff.mp hnodes
  simp only [Prod.mk.injEq] at hnode
  exact ⟨answer, t, n, Search.Run.eq_answered_of_answer? hanswer, ht, hn, hnode⟩

end Milp.SearchTree
