/-
What one step of the search can do, and which states a run passes.

`step` decides what to do with the node on top of the stack in several functions, one
inside the other. Proofs about runs never open them. `Concluded` lists the six ways in
which a node can be dealt with, each with the conditions under which it happens and the
state it leads to. `Stepped` lists what a step can do, and one of its cases is that the
top node is taken off the stack and concluded in one of these ways (`step_proceed`).

`Reachable` are the states at the head of the loop, and every run ends at one of them
(`run_ended`). So an invariant of the reachable states is a statement about every run,
however it is stopped.
-/
import Milp.Search
import Milp.Proofs.SearchTree.Growth

set_option autoImplicit false

namespace Milp.Search

variable {α : Type} [Number α]

/-! ## Taking a node -/

/-- The state in which the top of the stack has been taken and its relaxation counted. -/
def State.taken (s : State α) (rest : List (Pending α)) : State α :=
  { s with stack := rest, explored := s.explored + 1, relaxations := s.relaxations + 1 }

/-- The state in which a node's relaxation has been recorded. -/
def State.recorded (s : State α) (node : Nat) (values : List α) (objective : α) : State α :=
  { s with tree := s.tree.recordRelaxation node values objective }

/-- The state in which a node has been marked. -/
def State.marked (s : State α) (node : Nat) (outcome : NodeOutcome) : State α :=
  { s with tree := s.tree.mark node outcome }

/-- **How a node can be concluded**, given what its relaxation has to say. -/
inductive Concluded (p : Program α) (tolerance : α) (s : State α) (here : Pending α) :
    Relaxation α → State α → Prop
  | infeasible : Concluded p tolerance s here .infeasible (s.marked here.node .infeasible)
  | unbounded (below : here.node ≠ SearchTree.rootId) :
      Concluded p tolerance s here .unbounded (s.marked here.node .unbounded)
  | pruned (values : List α) (objective : α)
      (worse : beats p tolerance s.incumbent objective = false) :
      Concluded p tolerance s here (.solved values objective)
        ((s.recorded here.node values objective).marked here.node .pruned)
  | branched (values : List α) (objective : α) (column : Nat)
      (better : beats p tolerance s.incumbent objective = true)
      (chosen : splitColumn? p tolerance here.box values = some column) :
      Concluded p tolerance s here (.solved values objective)
        (split p (s.recorded here.node values objective) here column
          (Number.valueAt values column))
  | accepted (values : List α) (objective : α)
      (better : beats p tolerance s.incumbent objective = true)
      (unsplit : splitColumn? p tolerance here.box values = none)
      (improves : beats p tolerance s.incumbent (p.objectiveValue (snap p values)) = true) :
      Concluded p tolerance s here (.solved values objective)
        { (s.recorded here.node values objective).marked here.node .incumbent with
          incumbent := some ⟨snap p values, p.objectiveValue (snap p values)⟩ }
  | integral (values : List α) (objective : α)
      (better : beats p tolerance s.incumbent objective = true)
      (unsplit : splitColumn? p tolerance here.box values = none)
      (fails : beats p tolerance s.incumbent (p.objectiveValue (snap p values)) = false) :
      Concluded p tolerance s here (.solved values objective)
        ((s.recorded here.node values objective).marked here.node .integral)

/-- A visit concludes a node with a solved relaxation. -/
theorem concluded_visit (p : Program α) (tolerance : α) (s : State α) (here : Pending α)
    (values : List α) (objective : α) :
    Concluded p tolerance s here (.solved values objective)
      (visit p tolerance s here values objective) := by
  cases hbeats : beats p tolerance s.incumbent objective with
  | false =>
    have hvisit : visit p tolerance s here values objective
        = (s.recorded here.node values objective).marked here.node .pruned := by
      simp [visit, hbeats, State.recorded, State.marked]
    rw [hvisit]
    exact .pruned values objective hbeats
  | true =>
    cases hcol : splitColumn? p tolerance here.box values with
    | some column =>
      have hvisit : visit p tolerance s here values objective
          = split p (s.recorded here.node values objective) here column
              (Number.valueAt values column) := by
        simp [visit, hbeats, hcol, State.recorded]
      rw [hvisit]
      exact .branched values objective column hbeats hcol
    | none =>
      have hvisit : visit p tolerance s here values objective
          = accept p tolerance (s.recorded here.node values objective) here.node
              (snap p values) := by
        simp [visit, hbeats, hcol, State.recorded]
      rw [hvisit, accept]
      -- recording changes the tree only, so the incumbent to beat is still that of `s`
      cases himp : beats p tolerance s.incumbent (p.objectiveValue (snap p values)) with
      | true =>
        rw [if_pos (by exact himp)]
        exact .accepted values objective hbeats hcol himp
      | false =>
        rw [if_neg (by simpa [State.recorded] using himp)]
        exact .integral values objective hbeats hcol himp

theorem concluded_of_conclude {p : Program α} {tolerance : α} {s next : State α}
    {here : Pending α} {relaxation : Relaxation α}
    (h : conclude p tolerance s here relaxation = .proceed next) :
    Concluded p tolerance s here relaxation next := by
  cases relaxation with
  | infeasible =>
    rw [conclude] at h
    injection h with h
    rw [← h]
    exact .infeasible
  | unbounded =>
    by_cases hroot : here.node = SearchTree.rootId
    · rw [conclude, if_pos (beq_iff_eq.mpr hroot)] at h
      cases h
    · rw [conclude, if_neg (mt beq_iff_eq.mp hroot)] at h
      injection h with h
      rw [← h]
      exact .unbounded hroot
  | solved values objective =>
    rw [conclude] at h
    injection h with h
    rw [← h]
    exact concluded_visit p tolerance s here values objective

/-- Concluding a node ends the search only at the root, for want of a bound. -/
theorem finished_of_conclude {p : Program α} {tolerance : α} {s last : State α}
    {here : Pending α} {relaxation : Relaxation α} {status : Answer.Status}
    (h : conclude p tolerance s here relaxation = .finished last status) :
    relaxation = .unbounded ∧ here.node = SearchTree.rootId ∧ status = .unbounded
      ∧ last = s.marked here.node .unbounded := by
  cases relaxation with
  | infeasible => cases h
  | solved values objective => cases h
  | unbounded =>
    by_cases hroot : here.node = SearchTree.rootId
    · rw [conclude, if_pos (beq_iff_eq.mpr hroot)] at h
      injection h with hlast hstatus
      exact ⟨rfl, hroot, hstatus.symm, hlast.symm⟩
    · rw [conclude, if_neg (mt beq_iff_eq.mp hroot)] at h
      cases h

theorem conclude_ne_failed {p : Program α} {tolerance : α} {s : State α} {here : Pending α}
    {relaxation : Relaxation α} (fault : Fault α) :
    conclude p tolerance s here relaxation ≠ .failed fault := by
  intro h
  cases relaxation with
  | infeasible => cases h
  | solved values objective => cases h
  | unbounded =>
    rw [conclude] at h
    split at h <;> cases h

/-! ## Splitting a leaf -/

/-- The two subproblems of a split, in the order in which they come to lie on the stack. -/
def halves (p : Program α) (box : Box α) (column : Nat) (value : α) (first : Nat) :
    List (Pending α) :=
  let left : Pending α := ⟨first, box.set column (lowerHalf (boundsAt box column) value)⟩
  let right : Pending α := ⟨first + 1, box.set column (upperHalf (boundsAt box column) value)⟩
  if prefersUp p column then [right, left] else [left, right]

/-- Splitting a leaf puts both halves on the stack and their nodes at the end of the table;
each child has the cuts of its parent and one more. -/
theorem split_of_leaf (p : Program α) {s : State α} (here : Pending α) {n : Node α}
    (column : Nat) (value : α) (there : s.tree.get? here.node = some n) (leaf : n.IsLeaf) :
    ∃ tree : SearchTree α, split p s here column value
        = { s with
            tree := tree
            stack := halves p here.box column value s.tree.size ++ s.stack
            cuts := s.cuts + 2 }
      ∧ tree.size = s.tree.size + 2
      ∧ ∀ j, tree.get? j
          = if j = s.tree.size then
              some (Node.fresh s.tree.size (some here.node) (n.depth + 1)
                (n.cuts ++ [⟨s.cuts + 1, column, true, Number.floor value⟩]))
            else if j = s.tree.size + 1 then
              some (Node.fresh (s.tree.size + 1) (some here.node) (n.depth + 1)
                (n.cuts ++ [⟨s.cuts + 2, column, false, Number.ceil value⟩]))
            else if j = here.node then some (n.split s.tree.size (s.tree.size + 1))
            else s.tree.get? j := by
  obtain ⟨first, second, hleft, hright, hsize, hget⟩ := SearchTree.split_get?
    ⟨s.cuts + 1, column, true, Number.floor value⟩
    ⟨s.cuts + 2, column, false, Number.ceil value⟩ there leaf
  -- both additions succeed, so neither half is dropped
  refine ⟨second.mark here.node .branched, ?_, hsize, hget⟩
  simp only [split, addOpen, hleft, hright, halves]
  split <;> rfl

theorem incumbent_split (p : Program α) (s : State α) (here : Pending α) (column : Nat)
    (value : α) : (split p s here column value).incumbent = s.incumbent :=
  rfl

/-! ## The effect on the tree -/

/-- A node is closed: the stack and the shape of the tree stay, the node is no longer
pending. -/
structure Closes (s next : State α) (node : Nat) : Prop where
  stack : next.stack = s.stack
  others : ∀ j, j ≠ node → next.tree.get? j = s.tree.get? j
  itself : ∀ n, s.tree.get? node = some n → ∃ m, next.tree.get? node = some m
    ∧ m.left = n.left ∧ m.right = n.right ∧ m.cuts = n.cuts ∧ m.outcome ≠ .pending

omit [Number α] in
theorem closes_marked (s : State α) (node : Nat) {outcome : NodeOutcome}
    (h : outcome ≠ .pending) : Closes s (s.marked node outcome) node where
  stack := rfl
  others j hj := by
    show (s.tree.mark node outcome).get? j = _
    rw [SearchTree.get?_mark, if_neg hj]
  itself n hn := by
    refine ⟨{ n with outcome := outcome }, ?_, rfl, rfl, rfl, h⟩
    show (s.tree.mark node outcome).get? node = _
    rw [SearchTree.get?_mark, if_pos rfl, hn]
    rfl

omit [Number α] in
theorem closes_recorded_marked (s : State α) (node : Nat) (values : List α) (objective : α)
    {outcome : NodeOutcome} (h : outcome ≠ .pending) :
    Closes s ((s.recorded node values objective).marked node outcome) node where
  stack := rfl
  others j hj := by
    show ((s.tree.recordRelaxation node values objective).mark node outcome).get? j = _
    rw [SearchTree.get?_mark, if_neg hj, SearchTree.get?_recordRelaxation, if_neg hj]
  itself n hn := by
    refine ⟨{ n with relaxation := some objective, values := values, outcome := outcome },
      ?_, rfl, rfl, rfl, h⟩
    show ((s.tree.recordRelaxation node values objective).mark node outcome).get? node = _
    rw [SearchTree.get?_mark, if_pos rfl, SearchTree.get?_recordRelaxation, if_pos rfl, hn]
    rfl

/-- A node is split: its two halves are on the stack, their nodes at the end of the table. -/
structure Branches (p : Program α) (s next : State α) (here : Pending α) (n : Node α)
    (column : Nat) (value : α) : Prop where
  stack : next.stack = halves p here.box column value s.tree.size ++ s.stack
  size : next.tree.size = s.tree.size + 2
  lower : next.tree.get? s.tree.size = some (Node.fresh s.tree.size (some here.node)
    (n.depth + 1) (n.cuts ++ [⟨s.cuts + 1, column, true, Number.floor value⟩]))
  upper : next.tree.get? (s.tree.size + 1) = some (Node.fresh (s.tree.size + 1) (some here.node)
    (n.depth + 1) (n.cuts ++ [⟨s.cuts + 2, column, false, Number.ceil value⟩]))
  itself : ∃ m, next.tree.get? here.node = some m
    ∧ m.left = some s.tree.size ∧ m.right = some (s.tree.size + 1) ∧ m.cuts = n.cuts
    ∧ m.outcome = .branched
  others : ∀ j, j ≠ here.node → j ≠ s.tree.size → j ≠ s.tree.size + 1 →
    next.tree.get? j = s.tree.get? j

omit [Number α] in
theorem get?_recorded {s : State α} {node : Nat} {n : Node α} (values : List α) (objective : α)
    (there : s.tree.get? node = some n) :
    (s.recorded node values objective).tree.get? node
      = some { n with relaxation := some objective, values := values } := by
  show (s.tree.recordRelaxation node values objective).get? node = _
  rw [SearchTree.get?_recordRelaxation, if_pos rfl, there]
  rfl

theorem branches_split (p : Program α) {s : State α} (here : Pending α) {n : Node α}
    (values : List α) (objective : α) (column : Nat) (value : α)
    (there : s.tree.get? here.node = some n) (leaf : n.IsLeaf) :
    Branches p s (split p (s.recorded here.node values objective) here column value)
      here n column value := by
  -- recording changes neither the children of the node nor the size of the table
  have hrecorded := get?_recorded values objective there
  have hsize : (s.recorded here.node values objective).tree.size = s.tree.size :=
    SearchTree.size_recordRelaxation ..
  have hhere : here.node < s.tree.size := SearchTree.lt_size_of_get? there
  obtain ⟨tree, heq, hgrown, hget⟩ := split_of_leaf p here column value hrecorded leaf
  rw [hsize] at heq hgrown hget
  rw [heq]
  refine ⟨rfl, hgrown, ?_, ?_, ⟨Node.split { n with relaxation := some objective, values := values }
    s.tree.size (s.tree.size + 1), ?_, rfl, rfl, rfl, rfl⟩, fun j h₁ h₂ h₃ => ?_⟩
  · rw [hget, if_pos rfl]
    rfl
  · rw [hget, if_neg (by omega), if_pos rfl]
    rfl
  · rw [hget, if_neg (by omega), if_neg (by omega), if_pos rfl]
  · rw [hget, if_neg h₂, if_neg h₃, if_neg h₁]
    show (s.tree.recordRelaxation here.node values objective).get? j = _
    rw [SearchTree.get?_recordRelaxation, if_neg h₁]

section Nodes

variable {p : Program α} {s next : State α} {here : Pending α} {n : Node α} {column : Nat}
  {value : α} {id : Nat} {k : Node α}

omit [Number α] in
/-- Every node after closing one: the one that was closed, or an old one. -/
theorem Closes.node_cases {node : Nat} (hc : Closes s next node)
    (there : s.tree.get? node = some n) (hk : next.tree.get? id = some k) :
    (id = node ∧ k.left = n.left ∧ k.right = n.right ∧ k.cuts = n.cuts ∧ k.outcome ≠ .pending)
      ∨ (id ≠ node ∧ s.tree.get? id = some k) := by
  by_cases hid : id = node
  · obtain ⟨m, hm, hleft, hright, hcuts, hout⟩ := hc.itself n there
    rw [hid, hm, Option.some.injEq] at hk
    rw [← hk]
    exact .inl ⟨hid, hleft, hright, hcuts, hout⟩
  · rw [hc.others id hid] at hk
    exact .inr ⟨hid, hk⟩

/-- Every node after a split: one of the children, the node that was split, or an old one. -/
theorem Branches.node_cases (hb : Branches p s next here n column value)
    (hk : next.tree.get? id = some k) :
    (id = s.tree.size ∧ k = Node.fresh s.tree.size (some here.node) (n.depth + 1)
        (n.cuts ++ [⟨s.cuts + 1, column, true, Number.floor value⟩]))
      ∨ (id = s.tree.size + 1 ∧ k = Node.fresh (s.tree.size + 1) (some here.node) (n.depth + 1)
        (n.cuts ++ [⟨s.cuts + 2, column, false, Number.ceil value⟩]))
      ∨ (id = here.node ∧ ¬ k.IsLeaf ∧ k.cuts = n.cuts ∧ k.outcome = .branched)
      ∨ (id ≠ here.node ∧ s.tree.get? id = some k) := by
  by_cases h₁ : id = s.tree.size
  · rw [h₁, hb.lower, Option.some.injEq] at hk
    exact .inl ⟨h₁, hk.symm⟩
  by_cases h₂ : id = s.tree.size + 1
  · rw [h₂, hb.upper, Option.some.injEq] at hk
    exact .inr (.inl ⟨h₂, hk.symm⟩)
  by_cases h₃ : id = here.node
  · obtain ⟨m, hm, hleft, -, hcuts, hout⟩ := hb.itself
    rw [h₃, hm, Option.some.injEq] at hk
    rw [← hk]
    refine .inr (.inr (.inl ⟨h₃, fun hleaf => ?_, hcuts, hout⟩))
    rw [Node.IsLeaf, hleft] at hleaf
    cases hleaf.1
  · rw [hb.others id h₃ h₁ h₂] at hk
    exact .inr (.inr (.inr ⟨h₃, hk⟩))

theorem Branches.get?_old (hb : Branches p s next here n column value) (hid : id ≠ here.node)
    (hk : s.tree.get? id = some k) : next.tree.get? id = some k := by
  have hlt := SearchTree.lt_size_of_get? hk
  rw [hb.others id hid (by omega) (by omega)]
  exact hk

end Nodes

/-- A node that is concluded is closed or split. -/
theorem Concluded.closes_or_branched {p : Program α} {tolerance : α} {s next : State α}
    {here : Pending α} {relaxation : Relaxation α}
    (h : Concluded p tolerance s here relaxation next) :
    Closes s next here.node
      ∨ ∃ values objective column, splitColumn? p tolerance here.box values = some column
        ∧ next = split p (s.recorded here.node values objective) here column
            (Number.valueAt values column) := by
  cases h with
  | infeasible => exact .inl (closes_marked s here.node (by decide))
  | unbounded below => exact .inl (closes_marked s here.node (by decide))
  | pruned values objective worse =>
    exact .inl (closes_recorded_marked s here.node values objective (by decide))
  | branched values objective column better chosen =>
    exact .inr ⟨values, objective, column, chosen, rfl⟩
  | accepted values objective better unsplit improves =>
    have hc : Closes s ((s.recorded here.node values objective).marked here.node .incumbent)
        here.node := closes_recorded_marked s here.node values objective (by decide)
    exact .inl ⟨hc.stack, hc.others, hc.itself⟩
  | integral values objective better unsplit fails =>
    exact .inl (closes_recorded_marked s here.node values objective (by decide))

/-! ## Steps -/

section Steps

variable {p : Program α} {limits : Limits α} {oracle : Oracle α} {sighting : Sighting}
  {s next last : State α}

/-- **What a step can do.** Nothing is left, the search is stopped, the oracle fails, the
root has no bound, or the node on top of the stack is concluded. -/
inductive Stepped (p : Program α) (limits : Limits α) (oracle : Oracle α)
    (sighting : Sighting) (s : State α) : Step α → Prop
  | exhausted (empty : s.stack = []) :
      Stepped p limits oracle sighting s
        (.finished s (if s.incumbent.isSome then .optimal else .infeasible))
  | halted (here : Pending α) (rest : List (Pending α)) (status : Answer.Status)
      (top : s.stack = here :: rest)
      (halts : haltStatus? limits s.explored sighting = some status) :
      Stepped p limits oracle sighting s (.finished s status)
  | broken (here : Pending α) (rest : List (Pending α)) (fault : Fault α)
      (top : s.stack = here :: rest)
      (goesOn : haltStatus? limits s.explored sighting = none)
      (fails : oracle here.box = .error fault) :
      Stepped p limits oracle sighting s (.failed fault)
  | rootUnbounded (here : Pending α) (rest : List (Pending α)) (top : s.stack = here :: rest)
      (goesOn : haltStatus? limits s.explored sighting = none)
      (answers : oracle here.box = .ok .unbounded) (root : here.node = SearchTree.rootId) :
      Stepped p limits oracle sighting s
        (.finished ((s.taken rest).marked here.node .unbounded) .unbounded)
  | concluded (here : Pending α) (rest : List (Pending α)) (relaxation : Relaxation α)
      (next : State α) (top : s.stack = here :: rest)
      (goesOn : haltStatus? limits s.explored sighting = none)
      (answers : oracle here.box = .ok relaxation)
      (how : Concluded p limits.tolerance (s.taken rest) here relaxation next) :
      Stepped p limits oracle sighting s (.proceed next)

theorem stepped (p : Program α) (limits : Limits α) (oracle : Oracle α) (sighting : Sighting)
    (s : State α) : Stepped p limits oracle sighting s (step p limits oracle sighting s) := by
  -- in the order of the tests: the stack, the limits, the oracle
  cases htop : s.stack with
  | nil =>
    have hstep : step p limits oracle sighting s
        = .finished s (if s.incumbent.isSome then .optimal else .infeasible) := by
      rw [step, htop]
    rw [hstep]
    exact .exhausted htop
  | cons here rest =>
    cases hhalt : haltStatus? limits s.explored sighting with
    | some status =>
      have hstep : step p limits oracle sighting s = .finished s status := by
        simp only [step, htop, hhalt]
      rw [hstep]
      exact .halted here rest status htop hhalt
    | none =>
      cases horacle : oracle here.box with
      | error fault =>
        have hstep : step p limits oracle sighting s = .failed fault := by
          simp only [step, htop, hhalt, horacle]
        rw [hstep]
        exact .broken here rest fault htop hhalt horacle
      | ok relaxation =>
        have hstep : step p limits oracle sighting s
            = conclude p limits.tolerance (s.taken rest) here relaxation := by
          simp only [step, htop, hhalt, horacle, State.taken]
        rw [hstep]
        cases hconclude : conclude p limits.tolerance (s.taken rest) here relaxation with
        | proceed next =>
          exact .concluded here rest relaxation next htop hhalt horacle
            (concluded_of_conclude hconclude)
        | finished last status =>
          obtain ⟨rfl, hroot, rfl, rfl⟩ := finished_of_conclude hconclude
          exact .rootUnbounded here rest htop hhalt horacle hroot
        | failed fault => exact absurd hconclude (conclude_ne_failed fault)

/-- A step that goes on takes the top of the stack and concludes it. -/
theorem step_proceed (h : step p limits oracle sighting s = .proceed next) :
    ∃ here rest relaxation, s.stack = here :: rest
      ∧ haltStatus? limits s.explored sighting = none
      ∧ oracle here.box = .ok relaxation
      ∧ Concluded p limits.tolerance (s.taken rest) here relaxation next := by
  have hs := stepped p limits oracle sighting s
  rw [h] at hs
  cases hs with
  | concluded here rest relaxation next top goesOn answers how =>
    exact ⟨here, rest, relaxation, top, goesOn, answers, how⟩

/-- A step that is the last one: nothing is left, the search was stopped, or the root has
no bound. -/
theorem step_finished {status : Answer.Status}
    (h : step p limits oracle sighting s = .finished last status) :
    (s.stack = [] ∧ last = s ∧ status = if s.incumbent.isSome then .optimal else .infeasible)
      ∨ (last = s ∧ haltStatus? limits s.explored sighting = some status)
      ∨ status = .unbounded := by
  have hs := stepped p limits oracle sighting s
  rw [h] at hs
  cases hs with
  | exhausted empty => exact .inl ⟨empty, rfl, rfl⟩
  | halted here rest status top halts => exact .inr (.inl ⟨rfl, halts⟩)
  | rootUnbounded here rest top goesOn answers root => exact .inr (.inr rfl)

theorem step_failed {fault : Fault α} (h : step p limits oracle sighting s = .failed fault) :
    ∃ here rest, s.stack = here :: rest ∧ oracle here.box = .error fault := by
  have hs := stepped p limits oracle sighting s
  rw [h] at hs
  cases hs with
  | broken here rest fault top goesOn fails => exact ⟨here, rest, top, fails⟩

end Steps

/-! ## Runs -/

section Runs

variable {p : Program α} {limits : Limits α} {oracle : Oracle α} {watch : Nat → Sighting}

/-- The states at the head of the loop. -/
inductive Reachable (p : Program α) (limits : Limits α) (oracle : Oracle α)
    (watch : Nat → Sighting) : State α → Prop
  | initial : Reachable p limits oracle watch (.initial p)
  | step {s next : State α} (before : Reachable p limits oracle watch s)
      (moves : step p limits oracle (watch s.explored) s = .proceed next) :
      Reachable p limits oracle watch next

/-- **Induction over the turns of a run.** What holds at the start, and after a turn of the
loop if it held before it, holds of every reachable state. -/
theorem Reachable.turns {P : State α → Prop} (start : P (.initial p))
    (turn : ∀ s here rest relaxation next, Reachable p limits oracle watch s → P s →
      s.stack = here :: rest → oracle here.box = .ok relaxation →
      Concluded p limits.tolerance (s.taken rest) here relaxation next → P next)
    {s : State α} (reached : Reachable p limits oracle watch s) : P s := by
  induction reached with
  | initial => exact start
  | step before moves ih =>
    obtain ⟨here, rest, relaxation, hstack, -, horacle, hc⟩ := step_proceed moves
    exact turn _ here rest relaxation _ before ih hstack horacle hc

/-- The state after a number of steps, if none of them was the last one. -/
def stateAfter? (p : Program α) (limits : Limits α) (oracle : Oracle α)
    (watch : Nat → Sighting) : Nat → Option (State α)
  | 0 => some (.initial p)
  | steps + 1 => (stateAfter? p limits oracle watch steps).bind fun s =>
    match step p limits oracle (watch s.explored) s with
    | .proceed next => some next
    | _ => none

/-- The reachable states are those after some number of steps. -/
theorem reachable_iff {s : State α} :
    Reachable p limits oracle watch s
      ↔ ∃ steps, stateAfter? p limits oracle watch steps = some s := by
  constructor
  · intro h
    induction h with
    | initial => exact ⟨0, rfl⟩
    | step before moves ih =>
      obtain ⟨steps, hs⟩ := ih
      exact ⟨steps + 1, by rw [stateAfter?, hs, Option.bind_some, moves]⟩
  · rintro ⟨steps, h⟩
    induction steps generalizing s with
    | zero =>
      obtain rfl : State.initial p = s := Option.some.inj h
      exact .initial
    | succ steps ih =>
      obtain ⟨before, hbefore, hstep⟩ := Option.bind_eq_some_iff.mp h
      cases hmoves : step p limits oracle (watch before.explored) before with
      | proceed next =>
        rw [hmoves, Option.some.injEq] at hstep
        rw [← hstep]
        exact .step (ih hbefore) hmoves
      | finished last status => simp [hmoves] at hstep
      | failed fault => simp [hmoves] at hstep

/-- How a run can end: in a reachable state, or with the last step of one. -/
inductive Ended (p : Program α) (limits : Limits α) (oracle : Oracle α)
    (watch : Nat → Sighting) : Run α → Prop
  | unfinished (s : State α) (reached : Reachable p limits oracle watch s) :
      Ended p limits oracle watch (.unfinished s)
  | answered (s last : State α) (status : Answer.Status)
      (reached : Reachable p limits oracle watch s)
      (ends : step p limits oracle (watch s.explored) s = .finished last status) :
      Ended p limits oracle watch (.answered (last.answer status))
  | failed (s : State α) (fault : Fault α) (reached : Reachable p limits oracle watch s)
      (ends : step p limits oracle (watch s.explored) s = .failed fault) :
      Ended p limits oracle watch (.failed fault)

theorem runFrom_ended (steps : Nat) {s : State α} (reached : Reachable p limits oracle watch s) :
    Ended p limits oracle watch (runFrom p limits oracle watch steps s) := by
  -- the state moves along the run, so the induction is on the bound for all of them
  induction steps generalizing s with
  | zero => exact .unfinished s reached
  | succ steps ih =>
    rw [runFrom]
    cases hstep : step p limits oracle (watch s.explored) s with
    | proceed next => exact ih (reached.step hstep)
    | finished last status => exact .answered s last status reached hstep
    | failed fault => exact .failed s fault reached hstep

/-- **Every run ends at a reachable state**, however it ends. -/
theorem run_ended (p : Program α) (limits : Limits α) (oracle : Oracle α)
    (watch : Nat → Sighting) (steps : Nat) :
    Ended p limits oracle watch (run p limits oracle watch steps) :=
  runFrom_ended steps .initial

variable {steps : Nat} {answer : Answer α}

theorem run_answered (h : run p limits oracle watch steps = .answered answer) :
    ∃ final last status, Reachable p limits oracle watch final
      ∧ step p limits oracle (watch final.explored) final = .finished last status
      ∧ answer = last.answer status := by
  have hrun := run_ended p limits oracle watch steps
  rw [h] at hrun
  cases hrun with
  | answered s last status reached ends => exact ⟨s, last, status, reached, ends, rfl⟩

theorem run_failed {fault : Fault α} (h : run p limits oracle watch steps = .failed fault) :
    ∃ final, Reachable p limits oracle watch final
      ∧ step p limits oracle (watch final.explored) final = .failed fault := by
  have hrun := run_ended p limits oracle watch steps
  rw [h] at hrun
  cases hrun with
  | failed s fault reached ends => exact ⟨s, reached, ends⟩

omit [Number α] in
/-- A search is stopped by a signal, by the time or by the number of nodes. -/
theorem haltStatus?_some {limits : Limits α} {explored : Nat} {sighting : Sighting}
    {status : Answer.Status} (h : haltStatus? limits explored sighting = some status) :
    status = .interrupted ∨ status = .timeLimit ∨ status = .nodeLimit := by
  unfold haltStatus? at h
  split at h
  · exact .inl (Option.some.inj h).symm
  split at h
  · exact .inr (.inl (Option.some.inj h).symm)
  split at h
  · split at h
    · exact .inr (.inr (Option.some.inj h).symm)
    · cases h
  · cases h

/-- **The three kinds of answers**: nothing was left to search, the search was stopped, or
the root has no bound. -/
theorem answered_cases (h : run p limits oracle watch steps = .answered answer) :
    ∃ s, Reachable p limits oracle watch s
      ∧ ((s.stack = []
            ∧ answer = s.answer (if s.incumbent.isSome then .optimal else .infeasible))
        ∨ (∃ status, (status = .interrupted ∨ status = .timeLimit ∨ status = .nodeLimit)
            ∧ answer = s.answer status)
        ∨ (answer.status = .unbounded ∧ answer.values = none)) := by
  obtain ⟨s, last, status, reached, hstep, rfl⟩ := run_answered h
  refine ⟨s, reached, ?_⟩
  rcases step_finished hstep with ⟨hstack, rfl, rfl⟩ | ⟨rfl, hhalt⟩ | rfl
  · exact .inl ⟨hstack, rfl⟩
  · exact .inr (.inl ⟨status, haltStatus?_some hhalt, rfl⟩)
  · exact .inr (.inr ⟨rfl, rfl⟩)

omit [Number α] in
/-- Unless it is unbounded, an answer has the values of the incumbent. -/
theorem State.values_answer (s : State α) {status : Answer.Status} (h : status ≠ .unbounded) :
    (s.answer status).values = s.incumbent.map (·.values)
      ∧ (s.answer status).objective = s.incumbent.map (·.objective) := by
  have hbounded : (status == Answer.Status.unbounded) = false := by simpa using h
  rw [State.answer, hbounded]
  exact ⟨rfl, rfl⟩

/-- An answer with values is the incumbent of a reachable state, with its tree. -/
theorem values_of_answered {values : List α}
    (h : run p limits oracle watch steps = .answered answer)
    (hvalues : answer.values = some values) :
    ∃ s best, Reachable p limits oracle watch s ∧ s.incumbent = some best
      ∧ values = best.values ∧ answer.objective = some best.objective
      ∧ answer.tree = some s.tree := by
  obtain ⟨s, reached, hcases⟩ := answered_cases h
  -- an unbounded problem has no values, so the answer has those of the incumbent
  obtain ⟨status, hstatus, rfl⟩ : ∃ status, status ≠ .unbounded ∧ answer = s.answer status := by
    rcases hcases with ⟨-, hanswer⟩ | ⟨status, hstatus, hanswer⟩ | ⟨-, hnone⟩
    · exact ⟨_, by split <;> simp, hanswer⟩
    · exact ⟨status, by rcases hstatus with rfl | rfl | rfl <;> simp, hanswer⟩
    · rw [hnone] at hvalues
      cases hvalues
  obtain ⟨hval, hobj⟩ := s.values_answer hstatus
  cases hbest : s.incumbent with
  | none =>
    rw [hval, hbest] at hvalues
    cases hvalues
  | some best =>
    rw [hval, hbest] at hvalues
    rw [hbest] at hobj
    exact ⟨s, best, reached, hbest, (Option.some.inj hvalues).symm, hobj, rfl⟩

/-- A status that claims to be conclusive is given only when nothing is left to search. -/
theorem conclusive_of_answered (h : run p limits oracle watch steps = .answered answer)
    (status : answer.status = .optimal ∨ answer.status = .infeasible) :
    ∃ s, Reachable p limits oracle watch s ∧ s.stack = []
      ∧ answer.values = s.incumbent.map (·.values)
      ∧ answer.status = if s.incumbent.isSome then .optimal else .infeasible := by
  obtain ⟨s, reached, hcases⟩ := answered_cases h
  rcases hcases with ⟨hstack, rfl⟩ | ⟨other, hother, rfl⟩ | ⟨hunbounded, -⟩
  · refine ⟨s, reached, hstack, (s.values_answer ?_).1, rfl⟩
    split <;> simp
  -- a search that was stopped says so, and never that it is done
  · have hstatus : other = .optimal ∨ other = .infeasible := status
    rcases hother with rfl | rfl | rfl <;> simp at hstatus
  · rw [hunbounded] at status
    simp at status

end Runs

/-- The answer of a run, if it has one. -/
def Run.answer? {β : Type} : Run β → Option (Answer β)
  | .answered answer => some answer
  | _ => none

theorem Run.eq_answered_of_answer? {β : Type} {r : Run β} {answer : Answer β}
    (h : r.answer? = some answer) : r = .answered answer := by
  cases r with
  | answered other => rw [← Option.some.inj h]
  | failed fault => cases h
  | unfinished s => cases h

end Milp.Search
