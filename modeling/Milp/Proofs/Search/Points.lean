/-
Which nodes have a point.

A node of a search tree is given the values of its relaxation when that is solved, and never
loses them. So a node that is pending, infeasible or unbounded has no values, and any other
has as many as the oracle's points have (`Node.Pointed`). With an oracle that gives a value
for every column of the program, that is the number of columns.

The oracle is asked about boxes, and gives points of the right length for boxes of that
length only. So the invariant of the turns, `Measured`, is about the boxes on the stack as
well: a split changes an interval of a box, but not how many there are.

`pointed_of_returned` reads the nodes off what a session returns, also where the search was
stopped, by a signal or for want of patience.
-/
import Milp.Backend
import Milp.Proofs.Relaxation.Width
import Milp.Proofs.Search.Accounts

set_option autoImplicit false

namespace Milp

variable {α : Type}

/-! ## Nodes with points -/

/-- A node has an optimum, and a point of a given length, exactly if it was solved. -/
structure Node.Pointed (width : Nat) (n : Node α) : Prop where
  relaxed : n.relaxation.isSome = n.outcome.isSolved
  length : n.values.length = if n.relaxation.isSome = true then width else 0

theorem Node.pointed_fresh (width id : Nat) (parent : Option Nat) (depth : Nat)
    (cuts : List (Cut α)) : (Node.fresh id parent depth cuts).Pointed width :=
  ⟨rfl, rfl⟩

/-- Every node of a tree has a property. -/
def SearchTree.Each (P : Node α → Prop) (t : SearchTree α) : Prop :=
  ∀ j k, t.get? j = some k → P k

/-- A change keeps what holds of every node, if it holds of the nodes that it brings. -/
theorem SearchTree.Each.replaces {P : Node α → Prop} {t t' : SearchTree α} {id : Nat}
    {n m : Node α} {more : List (Node α)} (each : t.Each P) (h : Replaces t t' id n m more)
    (hm : P m) (hmore : ∀ k ∈ more, P k) : t'.Each P := by
  intro j k hk
  rcases h.node_cases hk with ⟨-, hnew⟩ | ⟨-, rfl⟩ | ⟨-, hold⟩
  · exact hmore k (List.mem_of_getElem? hnew)
  · exact hm
  · exact each j k hold

namespace Search

variable [Number α]

/-! ## Turns -/

/-- Boxes have one interval a column, and points one value a column. -/
structure Measured (p : Program α) (s : State α) : Prop where
  boxes : ∀ e ∈ s.stack, e.box.length = p.columns.length
  nodes : s.tree.Each (Node.Pointed p.columns.length)

theorem measured_initial (p : Program α) : Measured p (.initial p) where
  boxes e he := by
    rw [List.mem_singleton.mp he]
    exact length_rootBox p
  nodes j k hk := by
    rw [(SearchTree.eq_of_get?_initial hk).2]
    exact Node.pointed_fresh _ _ _ _ _

/-- The halves of a box have as many intervals. -/
theorem length_of_mem_halves {p : Program α} {box : Box α} {column first : Nat} {value : α}
    {e : Pending α} (he : e ∈ halves p box column value first) : e.box.length = box.length := by
  rw [halves] at he
  split at he <;>
    · rw [List.mem_pair] at he
      rcases he with rfl | rfl <;> exact List.length_set

section Turns

variable {p : Program α} {s next : State α} {here : Pending α} {rest : List (Pending α)}
  {n m : Node α} {column : Nat} {value : α}

theorem Measured.close (h : Measured p s) (hstack : s.stack = here :: rest)
    (hc : ClosedBy p (s.taken rest) next here n m)
    (length : m.values.length = if m.relaxation.isSome = true then p.columns.length else 0) :
    Measured p next where
  boxes e he := by
    rw [hc.stack] at he
    exact h.boxes e (hstack ▸ List.mem_cons_of_mem here he)
  nodes := h.nodes.replaces hc.replaces ⟨hc.concludes.relaxed, length⟩ (by simp)

/-- A node that is closed without having been solved keeps having no point. -/
theorem Measured.marked (h : Measured p s) (hstack : s.stack = here :: rest)
    (there : s.tree.get? here.node = some n) (unsolved : n.relaxation.isSome = false)
    {outcome : NodeOutcome} (pending : outcome ≠ .pending)
    (unsolves : outcome.isSolved = false) :
    Measured p ((s.taken rest).marked here.node outcome) :=
  h.close hstack (closedBy_marked (s := s.taken rest) there unsolved pending unsolves)
    (h.nodes here.node n there).length

theorem Measured.split (h : Measured p s) (hstack : s.stack = here :: rest)
    (hb : SplitBy p (s.taken rest) next here n m column value)
    (length : m.values.length = p.columns.length) : Measured p next where
  boxes e he := by
    rw [hb.stack, List.mem_append] at he
    -- the halves have the intervals of the box that was split, but for one
    rcases he with he | he
    · rw [length_of_mem_halves he]
      exact h.boxes here (hstack ▸ List.mem_cons_self)
    · exact h.boxes e (hstack ▸ List.mem_cons_of_mem here he)
  nodes := by
    have hm := hb.splitsInto
    refine h.nodes.replaces hb.replaces ⟨?_, ?_⟩ fun k hk => ?_
    · rw [hm.relaxed, hm.outcome]
      rfl
    · rw [if_pos hm.relaxed, length]
    · simp only [List.mem_cons, List.not_mem_nil, or_false] at hk
      rcases hk with rfl | rfl <;> exact Node.pointed_fresh _ _ _ _ _

/-- **A turn keeps the measures**, if a point that the oracle gives has a value for every
column. -/
theorem Measured.turn {tolerance : α} {relaxation : Relaxation α} (h : Measured p s)
    (hstack : s.stack = here :: rest) (there : s.tree.get? here.node = some n) (leaf : n.IsLeaf)
    (unsolved : n.relaxation.isSome = false)
    (fits : ∀ values objective, relaxation = .solved values objective →
      values.length = p.columns.length)
    (hc : Concluded p tolerance (s.taken rest) here relaxation next) : Measured p next := by
  -- the point is recorded before the node is marked, and the mark leaves it alone
  have hrecorded {values : List α} {objective : α} {outcome : NodeOutcome}
      (length : values.length = p.columns.length) (branched : outcome ≠ .branched)
      (incumbent : outcome ≠ .incumbent) (solves : outcome.isSolved = true) :
      Measured p (((s.taken rest).recorded here.node values objective).marked here.node outcome) :=
    h.close hstack
      (closedBy_recorded_marked (s := s.taken rest) there values objective branched incumbent
        solves) length
  cases hc with
  | infeasible => exact h.marked hstack there unsolved (by decide) rfl
  | unbounded below => exact h.marked hstack there unsolved (by decide) rfl
  | pruned values objective worse =>
    exact hrecorded (fits values objective rfl) (by decide) (by decide) rfl
  | branched values objective column better chosen =>
    have hsplit := splitBy_split (p := p) (s := s.taken rest) there leaf values objective column
      (Number.valueAt values column)
    exact h.split hstack hsplit (fits values objective rfl)
  | accepted values objective better unsplit improves =>
    have hclosed := closedBy_accepted (p := p) (s := s.taken rest) there values objective
      (snap p values)
    exact h.close hstack hclosed (fits values objective rfl)
  | integral values objective better unsplit fails =>
    exact hrecorded (fits values objective rfl) (by decide) (by decide) rfl

end Turns

/-! ## Runs -/

/-- In a box with one interval a column, an oracle gives points with one value a column. -/
def Fits (p : Program α) (oracle : Oracle α) : Prop :=
  ∀ box values objective, box.length = p.columns.length →
    oracle box = .ok (.solved values objective) → values.length = p.columns.length

theorem fits_relaxBy {p : Program α} {solve : Simplex.Solver α}
    (fills : Simplex.FillsColumns solve) : Fits p (p.relaxBy solve) :=
  fun _ _ _ len h => Program.length_of_relaxBy fills len h

variable {p : Program α} {limits : Limits α} {oracle : Oracle α} {watch : Nat → Sighting}
  {s : State α}

theorem Reachable.measured (fits : Fits p oracle) (reached : Reachable p limits oracle watch s) :
    Measured p s := by
  refine reached.turns (measured_initial p) ?_
  intro s here rest relaxation next before ih hstack horacle hc
  obtain ⟨n, hn, -, hleaf, hunsolved⟩ := before.books.top hstack
  refine ih.turn hstack hn hleaf hunsolved (fun values objective hsolved => ?_) hc
  rw [hsolved] at horacle
  exact fits here.box values objective (ih.boxes here (hstack ▸ List.mem_cons_self)) horacle

/-- The tree of an answer is that of a state with the right measures. -/
theorem measured_of_answered (fits : Fits p oracle) {steps : Nat} {answer : Answer α}
    (answered : run p limits oracle watch steps = .answered answer) :
    ∃ last status, answer = State.answer last status ∧ Measured p last := by
  obtain ⟨s, last, status, reached, hstep, rfl⟩ := run_answered answered
  refine ⟨last, status, rfl, ?_⟩
  have hmeasured := reached.measured fits
  have hends := stepped p limits oracle (watch s.explored) s
  rw [hstep] at hends
  cases hends with
  | exhausted empty => exact hmeasured
  | halted here rest status top halts => exact hmeasured
  | rootUnbounded here rest top goesOn answers root =>
    obtain ⟨n, hn, -, -, hunsolved⟩ := reached.books.top top
    exact hmeasured.marked top hn hunsolved (by decide) rfl

/-- **The nodes of a returned tree** have points exactly if they were solved, with a value for
every column. -/
theorem pointed_of_returned (fits : Fits p oracle) {steps : Nat} {answer : Answer α}
    {t : SearchTree α}
    (returned : (Backend.conductOf (run p limits oracle watch steps)).ending = .returned answer)
    (recorded : answer.tree = some t) : t.Each (Node.Pointed p.columns.length) := by
  obtain ⟨last, status, rfl, hmeasured⟩ :
      ∃ last status, answer = State.answer last status ∧ Measured p last := by
    have hended := run_ended p limits oracle watch steps
    cases hrun : run p limits oracle watch steps with
    | answered found =>
      rw [hrun] at returned
      obtain rfl : found = answer := SessionEnd.returned.inj returned
      exact measured_of_answered fits hrun
    | failed fault =>
      rw [hrun] at returned
      cases returned
    | unfinished s =>
      -- a search that has run out of patience is handed over as it is
      rw [hrun] at returned hended
      cases hended with
      | unfinished s reached =>
        exact ⟨s, .interrupted, (SessionEnd.returned.inj returned).symm, reached.measured fits⟩
  obtain rfl : last.tree = t := Option.some.inj recorded
  exact hmeasured.nodes

end Search

end Milp
