/-
The answer and the tree account for the run.

A turn of the search takes a node, counts it, marks it and possibly adds two children, in
separate places. `Books` is what comes out right at the end of every turn: the tree is
well kept, the stack has the pending nodes, the counter of cuts is that of the nodes below
the root, and as many nodes are explored as are not pending any more. A turn closes its
node (`ClosedBy`) or splits it (`SplitBy`), and either balances the books.

They hold for every oracle and tolerance and wherever the search is stopped, so they can be
read off the answer. `accounts_of_answered` does so.
-/
import Milp.Proofs.Search.Improvement
import Milp.Proofs.Search.Prefix
import Milp.Proofs.SearchTree.Bookkeeping

set_option autoImplicit false

namespace Milp.Search

variable {α : Type} [Number α]

/-! ## What a turn does to the books -/

section Turns

variable {p : Program α} {s next : State α} {here : Pending α} {n m : Node α}

/-- The node that was taken is closed, and becomes the incumbent's if it is marked so. -/
structure ClosedBy (p : Program α) (s next : State α) (here : Pending α) (n m : Node α) :
    Prop where
  replaces : SearchTree.Replaces s.tree next.tree here.node n m []
  concludes : SearchTree.Concludes n m
  stack : next.stack = s.stack
  cuts : next.cuts = s.cuts
  explored : next.explored = s.explored
  relaxations : next.relaxations = s.relaxations
  keeps : m.outcome ≠ .incumbent → next.incumbent = s.incumbent
  takes : m.outcome = .incumbent →
    ∃ values, next.incumbent = some ⟨values, p.objectiveValue values⟩

/-- The node that was taken is split. -/
structure SplitBy (p : Program α) (s next : State α) (here : Pending α) (n m : Node α)
    (column : Nat) (value : α) : Prop where
  replaces : SearchTree.Replaces s.tree next.tree here.node n m
    [Node.fresh s.tree.size (some here.node) (n.depth + 1)
        (n.cuts ++ [⟨s.cuts + 1, column, true, Number.floor value⟩]),
      Node.fresh (s.tree.size + 1) (some here.node) (n.depth + 1)
        (n.cuts ++ [⟨s.cuts + 2, column, false, Number.ceil value⟩])]
  splitsInto : SearchTree.SplitsInto n m s.tree.size
  stack : next.stack = halves p here.box column value s.tree.size ++ s.stack
  cuts : next.cuts = s.cuts + 2
  explored : next.explored = s.explored
  relaxations : next.relaxations = s.relaxations
  keeps : next.incumbent = s.incumbent

theorem closedBy_marked (there : s.tree.get? here.node = some n)
    (unsolved : n.relaxation.isSome = false) {outcome : NodeOutcome}
    (pending : outcome ≠ .pending) (houtcome : outcome.isSolved = false) :
    ClosedBy p s (s.marked here.node outcome) here n { n with outcome := outcome } where
  replaces := SearchTree.replaces_mark there outcome
  concludes :=
    { frame := rfl
      pending := pending
      branched := by rintro rfl; cases houtcome
      relaxed := unsolved.trans houtcome.symm }
  stack := rfl
  cuts := rfl
  explored := rfl
  relaxations := rfl
  keeps _ := rfl
  takes := by rintro rfl; cases houtcome

theorem closedBy_recorded_marked (there : s.tree.get? here.node = some n) (values : List α)
    (objective : α) {outcome : NodeOutcome} (branched : outcome ≠ .branched)
    (incumbent : outcome ≠ .incumbent) (houtcome : outcome.isSolved = true) :
    ClosedBy p s ((s.recorded here.node values objective).marked here.node outcome) here n
      { n with relaxation := some objective, values := values, outcome := outcome } where
  replaces := SearchTree.replaces_recordRelaxation_mark there values objective outcome
  concludes :=
    { frame := rfl
      pending := by rintro rfl; cases houtcome
      branched := branched
      relaxed := houtcome.symm }
  stack := rfl
  cuts := rfl
  explored := rfl
  relaxations := rfl
  keeps _ := rfl
  takes h := absurd h incumbent

theorem closedBy_accepted (there : s.tree.get? here.node = some n) (values : List α)
    (objective : α) (snapped : List α) :
    ClosedBy p s
      { (s.recorded here.node values objective).marked here.node .incumbent with
        incumbent := some ⟨snapped, p.objectiveValue snapped⟩ } here n
      { n with relaxation := some objective, values := values, outcome := .incumbent } where
  replaces := SearchTree.replaces_recordRelaxation_mark there values objective .incumbent
  concludes :=
    { frame := rfl
      pending := by simp
      branched := by simp
      relaxed := rfl }
  stack := rfl
  cuts := rfl
  explored := rfl
  relaxations := rfl
  keeps h := absurd rfl h
  takes _ := ⟨snapped, rfl⟩

theorem splitBy_split (there : s.tree.get? here.node = some n) (leaf : n.IsLeaf)
    (values : List α) (objective : α) (column : Nat) (value : α) :
    SplitBy p s (split p (s.recorded here.node values objective) here column value) here n
      (Node.split { n with relaxation := some objective, values := values }
        s.tree.size (s.tree.size + 1)) column value := by
  have hrecorded := get?_recorded values objective there
  have hsize : (s.recorded here.node values objective).tree.size = s.tree.size :=
    SearchTree.size_recordRelaxation ..
  have hhere : here.node < s.tree.size := SearchTree.lt_size_of_get? there
  obtain ⟨tree, heq, -, hget⟩ := split_of_leaf p here column value hrecorded leaf
  rw [hsize] at heq hget
  rw [heq]
  refine ⟨?_, ⟨rfl, rfl, rfl, rfl, rfl, rfl, rfl⟩, rfl, rfl, rfl, rfl, rfl⟩
  refine SearchTree.replaces_of_get? there fun j => ?_
  refine (hget j).trans ?_
  by_cases hfirst : j = s.tree.size
  · rw [if_pos hfirst, if_pos (by omega), hfirst, Nat.sub_self]
    rfl
  rw [if_neg hfirst]
  by_cases hsecond : j = s.tree.size + 1
  · rw [if_pos hsecond, if_pos (by omega), hsecond, Nat.add_sub_cancel_left]
    rfl
  rw [if_neg hsecond]
  by_cases hj : s.tree.size ≤ j
  · -- behind the children there is nothing
    obtain ⟨k, rfl⟩ : ∃ k, j = s.tree.size + (k + 2) := ⟨j - s.tree.size - 2, by omega⟩
    rw [if_neg (by omega), if_pos hj, Nat.add_sub_cancel_left]
    exact Array.getElem?_eq_none (by
      rw [← SearchTree.size, hsize]
      omega)
  · rw [if_neg hj]
    by_cases hid : j = here.node
    · rw [if_pos hid, if_pos hid]
    · rw [if_neg hid, if_neg hid]
      show (s.tree.recordRelaxation here.node values objective).get? j = _
      rw [SearchTree.get?_recordRelaxation, if_neg hid]

/-- **A turn closes its node or splits it.** -/
theorem Concluded.closedBy_or_splitBy {tolerance : α} {relaxation : Relaxation α}
    (hc : Concluded p tolerance s here relaxation next)
    (there : s.tree.get? here.node = some n) (leaf : n.IsLeaf)
    (unsolved : n.relaxation.isSome = false) :
    (∃ m, ClosedBy p s next here n m)
      ∨ ∃ m column value, SplitBy p s next here n m column value := by
  cases hc with
  | infeasible => exact .inl ⟨_, closedBy_marked there unsolved (by decide) rfl⟩
  | unbounded below => exact .inl ⟨_, closedBy_marked there unsolved (by decide) rfl⟩
  | pruned values objective worse =>
    exact .inl ⟨_, closedBy_recorded_marked there values objective (by decide) (by decide) rfl⟩
  | branched values objective column better chosen =>
    exact .inr ⟨_, column, _, splitBy_split there leaf values objective column _⟩
  | accepted values objective better unsplit improves =>
    exact .inl ⟨_, closedBy_accepted there values objective (snap p values)⟩
  | integral values objective better unsplit fails =>
    exact .inl ⟨_, closedBy_recorded_marked there values objective (by decide) (by decide) rfl⟩

end Turns

/-! ## The books of a state -/

/-- What balances between two turns. -/
structure Books (p : Program α) (s : State α) : Prop where
  tree : s.tree.WellKept
  /-- No node is on the stack twice. -/
  nodup : (s.stack.map (·.node)).Nodup
  /-- The nodes on the stack are the pending ones. -/
  open_iff : ∀ id, id ∈ s.stack.map (·.node)
    ↔ ∃ n, s.tree.get? id = some n ∧ n.outcome = .pending
  /-- There is a cut for every node but the root. -/
  cuts : s.cuts + 1 = s.tree.size
  explored : s.explored = s.tree.count fun n => n.outcome != .pending
  relaxations : s.relaxations = s.explored
  crowned : s.incumbent.isSome = true ↔ ∃ id n, s.tree.Crowned id n
  objective : ∀ best, s.incumbent = some best → best.objective = p.objectiveValue best.values

theorem books_initial (p : Program α) : Books p (.initial p) := by
  have hroot : ∀ id n, (State.initial p).tree.get? id = some n →
      id = SearchTree.rootId ∧ n = Node.fresh SearchTree.rootId none 0 [] :=
    fun _ _ hn => SearchTree.eq_of_get?_initial hn
  constructor
  case tree => exact SearchTree.wellKept_initial
  case nodup => exact List.nodup_singleton _
  case open_iff =>
    intro id
    show id ∈ [SearchTree.rootId] ↔ _
    rw [List.mem_singleton]
    constructor
    · rintro rfl
      exact ⟨_, by rw [State.initial, SearchTree.get?_initial, if_pos rfl], rfl⟩
    · rintro ⟨n, hn, -⟩
      exact (hroot id n hn).1
  case cuts => rfl
  case explored =>
    show 0 = SearchTree.count .initial _
    rw [SearchTree.count_initial]
    rfl
  case relaxations => rfl
  case crowned =>
    refine ⟨fun h => (Bool.false_ne_true h).elim, ?_⟩
    rintro ⟨id, n, hn, hout⟩
    rw [(hroot id n hn).2] at hout
    cases hout
  case objective => exact fun best hbest => by cases hbest

section Turns

variable {p : Program α} {s next : State α} {here : Pending α} {rest : List (Pending α)}
  {n m : Node α} {column : Nat} {value : α}

/-- The node on top of the stack is a pending leaf without a relaxation. -/
theorem Books.top (h : Books p s) (hstack : s.stack = here :: rest) :
    ∃ n, s.tree.get? here.node = some n ∧ n.outcome = .pending ∧ n.IsLeaf
      ∧ n.relaxation.isSome = false := by
  obtain ⟨n, hn, hpending⟩ := (h.open_iff here.node).mp
    (List.mem_map_of_mem (hstack ▸ List.mem_cons_self))
  refine ⟨n, hn, hpending, h.tree.leaf _ n hn (by rw [hpending]; decide), ?_⟩
  rw [h.tree.relaxed _ n hn, hpending]
  rfl

/-- The top of the stack is not below it as well. -/
theorem Books.top_fresh (h : Books p s) (hstack : s.stack = here :: rest) :
    here.node ∉ rest.map (·.node) ∧ (rest.map (·.node)).Nodup := by
  have := h.nodup
  rw [hstack, List.map_cons] at this
  exact List.nodup_cons.mp this

/-- What is below the top of the stack are the other pending nodes. -/
theorem Books.rest_iff (h : Books p s) (hstack : s.stack = here :: rest) (id : Nat) :
    id ∈ rest.map (·.node)
      ↔ id ≠ here.node ∧ ∃ n, s.tree.get? id = some n ∧ n.outcome = .pending := by
  rw [← h.open_iff, hstack, List.map_cons, List.mem_cons]
  constructor
  · intro hid
    refine ⟨?_, .inr hid⟩
    rintro rfl
    exact (h.top_fresh hstack).1 hid
  · rintro ⟨hne, rfl | hid⟩
    · exact absurd rfl hne
    · exact hid

omit [Number α] in
/-- A node that leaves the pending ones is one more explored. -/
theorem count_explored {t t' : SearchTree α} {id : Nat} {more : List (Node α)}
    (h : SearchTree.Replaces t t' id n m more) (hn : n.outcome = .pending)
    (hm : m.outcome ≠ .pending) (hmore : ∀ k ∈ more, k.outcome = .pending) :
    (t'.count fun n => n.outcome != .pending) = (t.count fun n => n.outcome != .pending) + 1 := by
  have hcount := h.count_eq fun n => n.outcome != .pending
  have hnew : more.countP (fun n => n.outcome != .pending) = 0 := by
    rw [List.countP_eq_zero]
    intro k hk
    rw [hmore k hk]
    decide
  have hbefore : (n.outcome != NodeOutcome.pending) = false := by rw [hn]; rfl
  have hafter : (m.outcome != NodeOutcome.pending) = true := by simpa using hm
  simpa only [hbefore, hafter, hnew, Bool.false_eq_true, if_false, if_true, Nat.add_zero]
    using hcount

omit [Number α] in
/-- A change in which no marked node is replaced or added leaves those that are marked. -/
theorem exists_crowned_iff {t t' : SearchTree α} {id : Nat} {more : List (Node α)}
    (h : SearchTree.Replaces t t' id n m more) (hn : n.outcome ≠ .incumbent)
    (hm : m.outcome ≠ .incumbent) (hmore : ∀ k ∈ more, k.outcome ≠ .incumbent) :
    (∃ j k, t.Crowned j k) ↔ ∃ j k, t'.Crowned j k := by
  constructor
  · rintro ⟨j, k, hk, hmark⟩
    have hne : j ≠ id := by
      rintro rfl
      rw [h.there, Option.some.injEq] at hk
      exact hn (hk ▸ hmark)
    exact ⟨j, k, h.get?_old hne hk, hmark⟩
  · rintro ⟨j, k, hk, hmark⟩
    rcases h.node_cases hk with ⟨-, hnew⟩ | ⟨-, rfl⟩ | ⟨-, hold⟩
    · exact absurd hmark (hmore k (List.mem_of_getElem? hnew))
    · exact absurd hmark hm
    · exact ⟨j, k, hold, hmark⟩

/-- **Closing the top node balances the books.** -/
theorem Books.close (h : Books p s) (hstack : s.stack = here :: rest)
    (pending : n.outcome = .pending) (hc : ClosedBy p (s.taken rest) next here n m) :
    Books p next := by
  have hr : SearchTree.Replaces s.tree next.tree here.node n m [] := hc.replaces
  constructor
  case tree => exact h.tree.close hr hc.concludes pending
  case nodup =>
    rw [hc.stack]
    exact (h.top_fresh hstack).2
  case open_iff =>
    intro id
    rw [hc.stack]
    refine (h.rest_iff hstack id).trans ?_
    constructor
    · rintro ⟨hne, k, hk, hout⟩
      exact ⟨k, hr.get?_old hne hk, hout⟩
    · rintro ⟨k, hk, hout⟩
      rcases hr.node_cases hk with ⟨-, hnone⟩ | ⟨-, rfl⟩ | ⟨hne, hold⟩
      · cases hnone
      · exact absurd hout hc.concludes.pending
      · exact ⟨hne, k, hold, hout⟩
  case cuts =>
    rw [hc.cuts, hr.size]
    exact h.cuts
  case explored =>
    rw [count_explored hr pending hc.concludes.pending (by simp), hc.explored, ← h.explored]
    rfl
  case relaxations =>
    rw [hc.relaxations, hc.explored]
    exact congrArg (· + 1) h.relaxations
  case crowned =>
    by_cases hout : m.outcome = .incumbent
    · obtain ⟨values, hvalues⟩ := hc.takes hout
      rw [hvalues]
      exact ⟨fun _ => ⟨here.node, m, hr.get?_itself, hout⟩, fun _ => rfl⟩
    · -- neither the old node nor the new one is marked
      rw [hc.keeps hout]
      exact h.crowned.trans
        (exists_crowned_iff hr (by rw [pending]; decide) hout (fun _ hk => absurd hk (by simp)))
  case objective =>
    intro best hbest
    by_cases hout : m.outcome = .incumbent
    · obtain ⟨values, hvalues⟩ := hc.takes hout
      rw [hvalues, Option.some.injEq] at hbest
      rw [← hbest]
    · rw [hc.keeps hout] at hbest
      exact h.objective best hbest

/-- The halves of a split are the two positions behind the table, each once. -/
theorem halves_nodes (p : Program α) (box : Box α) (column : Nat) (value : α) (first : Nat) :
    ((halves p box column value first).map (·.node)).Nodup
      ∧ ∀ id, id ∈ (halves p box column value first).map (·.node)
        ↔ id = first ∨ id = first + 1 := by
  rw [halves]
  -- the preferred half is first, in either order they are the same two
  split
  · exact ⟨by simp, fun id => by simp [or_comm]⟩
  · exact ⟨by simp, fun id => by simp⟩

omit [Number α] in
/-- Both children are pending at first. -/
theorem pending_of_mem_children {i j depth : Nat} {parent : Option Nat}
    {left right : List (Cut α)} {k : Node α}
    (hk : k ∈ [Node.fresh i parent depth left, Node.fresh j parent depth right]) :
    k.outcome = .pending := by
  simp only [List.mem_cons, List.not_mem_nil, or_false] at hk
  rcases hk with rfl | rfl <;> rfl

/-- **Splitting the top node balances the books.** -/
theorem Books.split (h : Books p s) (hstack : s.stack = here :: rest)
    (pending : n.outcome = .pending)
    (hb : SplitBy p (s.taken rest) next here n m column value) : Books p next := by
  have hr := hb.replaces
  have hbranched : m.outcome = .branched := hb.splitsInto.outcome
  -- the new positions are behind those the stack had
  obtain ⟨hnodup, hhalves⟩ :=
    halves_nodes p here.box column value (s.taken rest).tree.size
  have hrest : ∀ id ∈ rest.map (·.node), id < s.tree.size := by
    intro id hid
    obtain ⟨-, k, hk, -⟩ := (h.rest_iff hstack id).mp hid
    exact SearchTree.lt_size_of_get? hk
  constructor
  case tree =>
    refine h.tree.split hr hb.splitsInto pending ⟨?_, rfl⟩ ⟨?_, rfl⟩
    · exact h.cuts
    · exact congrArg (· + 1) h.cuts
  case nodup =>
    rw [hb.stack, List.map_append, List.nodup_append']
    refine ⟨hnodup, (h.top_fresh hstack).2, fun id hnew hold => ?_⟩
    have hlt := hrest id hold
    have hle : id = s.tree.size ∨ id = s.tree.size + 1 := (hhalves id).mp hnew
    omega
  case open_iff =>
    intro id
    rw [hb.stack, List.map_append, List.mem_append, hhalves]
    constructor
    · rintro ((rfl | rfl) | hid)
      · exact ⟨_, hr.get?_first, rfl⟩
      · exact ⟨_, hr.get?_second, rfl⟩
      · obtain ⟨hne, k, hk, hout⟩ := (h.rest_iff hstack id).mp hid
        exact ⟨k, hr.get?_old hne hk, hout⟩
    · rintro ⟨k, hk, hout⟩
      rcases hr.split_cases hk with ⟨hj, -⟩ | ⟨hj, -⟩ | ⟨-, rfl⟩ | ⟨hne, hold⟩
      · exact .inl (.inl hj)
      · exact .inl (.inr hj)
      · rw [hbranched] at hout
        cases hout
      · exact .inr ((h.rest_iff hstack id).mpr ⟨hne, k, hold, hout⟩)
  case cuts =>
    rw [hb.cuts, hr.size]
    exact congrArg (· + 2) h.cuts
  case explored =>
    rw [count_explored hr pending (by rw [hbranched]; decide)
      (fun k hk => pending_of_mem_children hk), hb.explored]
    exact congrArg (· + 1) h.explored
  case relaxations =>
    rw [hb.relaxations, hb.explored]
    exact congrArg (· + 1) h.relaxations
  case crowned =>
    rw [hb.keeps]
    refine h.crowned.trans (exists_crowned_iff hr (by rw [pending]; decide)
      (by rw [hbranched]; decide) fun k hk => ?_)
    rw [pending_of_mem_children hk]
    decide
  case objective =>
    intro best hbest
    rw [hb.keeps] at hbest
    exact h.objective best hbest

end Turns

/-! ## Runs -/

section Runs

variable {p : Program α} {limits : Limits α} {oracle : Oracle α} {watch : Nat → Sighting}
  {s : State α}

/-- **The books balance in every reachable state.** -/
theorem Reachable.books (reached : Reachable p limits oracle watch s) : Books p s := by
  refine reached.turns (books_initial p) fun s here rest relaxation next _ ih hstack _ hc => ?_
  obtain ⟨n, hn, hpending, hleaf, hunsolved⟩ := ih.top hstack
  rcases hc.closedBy_or_splitBy (s := s.taken rest) hn hleaf hunsolved with
    ⟨m, hclosed⟩ | ⟨m, column, value, hsplit⟩
  · exact ih.close hstack hpending hclosed
  · exact ih.split hstack hpending hsplit

/-- No more nodes are explored than the limit lets. -/
theorem Reachable.explored_le (reached : Reachable p limits oracle watch s) {limit : Nat}
    (hlimit : limits.nodeLimit = some limit) : s.explored ≤ limit := by
  induction reached with
  | initial => exact Nat.zero_le _
  | step before moves ih =>
    obtain ⟨-, -, -, -, hgoesOn, -, -⟩ := step_proceed moves
    have hlt := (haltStatus?_eq_none_iff.mp hgoesOn).2 limit hlimit
    rw [explored_of_proceed moves]
    omega

/-- **How an answer and its tree account for the run.** -/
structure Accounts (p : Program α) (limits : Limits α) (answer : Answer α) (t : SearchTree α) :
    Prop where
  /-- The nodes explored are those that are not pending. -/
  nodes : answer.nodes = t.count fun n => n.outcome != .pending
  iterations : answer.iterations = answer.nodes
  within : ∀ limit, limits.nodeLimit = some limit → answer.nodes ≤ limit
  /-- Every node but the root is one of the two children of a branched node, the size is
  right, the cuts say on which side a node is, and relaxations are recorded where one was
  solved. -/
  tree : t.WellKept
  /-- The status is conclusive exactly if no node is pending. -/
  conclusive : (answer.status = .optimal ∨ answer.status = .infeasible
      ∨ answer.status = .unbounded)
    ↔ ∀ id n, t.get? id = some n → n.outcome ≠ .pending
  /-- There is a point exactly if some node was the incumbent's. -/
  values : answer.values.isSome = true ↔ ∃ id n, t.get? id = some n ∧ n.outcome = .incumbent
  objective : answer.objective = answer.values.map p.objectiveValue

/-- The accounts are those of a state with balanced books, if the status fits it. -/
theorem Books.accounts {status : Answer.Status} (h : Books p s)
    (within : ∀ limit, limits.nodeLimit = some limit → s.explored ≤ limit)
    (conclusive : (status = .optimal ∨ status = .infeasible ∨ status = .unbounded)
      ↔ s.stack = [])
    (unbounded : status = .unbounded → s.incumbent = none) :
    Accounts p limits (s.answer status) s.tree := by
  -- hiding the incumbent of an unbounded problem hides nothing
  have hbest : (if status == .unbounded then none else s.incumbent) = s.incumbent := by
    split
    · next hstatus => exact (unbounded (eq_of_beq hstatus)).symm
    · rfl
  have hvalues : (s.answer status).values = s.incumbent.map (·.values) :=
    congrArg (Option.map Incumbent.values) hbest
  have hobjective : (s.answer status).objective = s.incumbent.map (·.objective) :=
    congrArg (Option.map Incumbent.objective) hbest
  constructor
  case nodes => exact h.explored
  case iterations => exact h.relaxations
  case within => exact within
  case tree => exact h.tree
  case conclusive =>
    refine conclusive.trans ?_
    constructor
    · intro hstack id n hn hout
      have hopen := (h.open_iff id).mpr ⟨n, hn, hout⟩
      rw [hstack] at hopen
      cases hopen
    · intro hnone
      by_contra hne
      obtain ⟨e, he⟩ := List.exists_mem_of_ne_nil _ hne
      obtain ⟨n, hn, hout⟩ := (h.open_iff e.node).mp (List.mem_map_of_mem he)
      exact hnone e.node n hn hout
  case values =>
    rw [hvalues, Option.isSome_map]
    exact h.crowned
  case objective =>
    rw [hvalues, hobjective]
    cases hincumbent : s.incumbent with
    | none => rfl
    | some best => exact congrArg some (h.objective best hincumbent)

/-- The only turn in which an unbounded root ends the search is the first one. -/
theorem Reachable.eq_initial_of_root (reached : Reachable p limits oracle watch s)
    {here : Pending α} {rest : List (Pending α)} (hstack : s.stack = here :: rest)
    (root : here.node = SearchTree.rootId) : s = .initial p := by
  rcases reached.pastRoot with hstart | ⟨hpast, -⟩
  · exact hstart
  · exact absurd root (hpast here (hstack ▸ List.mem_cons_self))

/-- **An answer accounts for its run**, whatever the oracle says and wherever the search is
stopped. -/
theorem accounts_of_answered (p : Program α) (limits : Limits α) (oracle : Oracle α)
    (watch : Nat → Sighting) (steps : Nat) (answer : Answer α)
    (answered : run p limits oracle watch steps = .answered answer) :
    ∃ t, answer.tree = some t ∧ Accounts p limits answer t := by
  obtain ⟨s, last, status, reached, hstep, rfl⟩ := run_answered answered
  refine ⟨last.tree, rfl, ?_⟩
  have hbooks := reached.books
  have hends := stepped p limits oracle (watch s.explored) s
  rw [hstep] at hends
  cases hends with
  | exhausted empty =>
    refine hbooks.accounts (fun limit hlimit => reached.explored_le hlimit) ?_ ?_
    · refine ⟨fun _ => empty, fun _ => ?_⟩
      split <;> simp
    · split <;> simp
  | halted here rest status top halts =>
    have hstatus := haltStatus?_some halts
    refine hbooks.accounts (fun limit hlimit => reached.explored_le hlimit) ?_ ?_
    · rw [top]
      rcases hstatus with rfl | rfl | rfl <;> simp
    · rcases hstatus with rfl | rfl | rfl <;> simp
  | rootUnbounded here rest top goesOn answers root =>
    -- the root is closed like any other node, in the first turn
    obtain rfl := reached.eq_initial_of_root top root
    obtain ⟨n, hn, hpending, -, hunsolved⟩ := hbooks.top top
    have hclosed : ClosedBy p ((State.initial p).taken rest)
        (((State.initial p).taken rest).marked here.node .unbounded) here n
        { n with outcome := .unbounded } :=
      closedBy_marked (s := (State.initial p).taken rest) hn hunsolved (by decide) rfl
    have hrest : rest = [] := (List.cons.inj top).2.symm
    refine (hbooks.close top hpending hclosed).accounts (fun limit hlimit => ?_) ?_ ?_
    · exact (haltStatus?_eq_none_iff.mp goesOn).2 limit hlimit
    · exact ⟨fun _ => hrest, fun _ => .inr (.inr rfl)⟩
    · exact fun _ => rfl

/-- A run over three nodes, two of which gave an incumbent. -/
theorem accounts_of_answered_twoIncumbents :
    ∃ answer t, run twoIncumbents exactLimits (twoIncumbents.relax 0) (fun _ => ⟨false, .zero⟩) 4
        = .answered answer
      ∧ answer.tree = some t ∧ t.size = 3 ∧ Accounts twoIncumbents exactLimits answer t := by
  have hrun : (run twoIncumbents exactLimits (twoIncumbents.relax 0)
      (fun _ => ⟨false, .zero⟩) 4).answer?.map (fun answer => answer.tree.map (·.size))
      = some (some 3) := by decide +kernel
  obtain ⟨answer, hanswer, hsize⟩ := Option.map_eq_some_iff.mp hrun
  have hrun := Run.eq_answered_of_answer? hanswer
  obtain ⟨t, ht, haccounts⟩ := accounts_of_answered twoIncumbents exactLimits
    (twoIncumbents.relax 0) _ 4 answer hrun
  rw [ht] at hsize
  exact ⟨answer, t, hrun, ht, Option.some.inj hsize, haccounts⟩

end Runs

end Milp.Search
