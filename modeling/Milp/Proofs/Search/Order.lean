/-
The order in which nodes are solved.

`solved?` says which subproblem a turn of the search solves, and `solvedIn` lists the
nodes of the first turns. The list and the tree tell the same story. A node is on the list
once its turn is over and its outcome is no longer pending (`mem_solvedIn_iff`), and no
node is on it twice (`nodup_solvedIn`).

A turn changes a tree by requests for children and by notes on what was found out at a
node, and by nothing else (`Concluded.tree_induction`). So the links of the tree are in
step in every state, and the tree of a later state extends the tree of an earlier one.

`Turn` is a turn as the later proofs need it: which node of the table is replaced by
which, what is added, and what becomes of the incumbent (`Judged`).
-/
import Milp.Proofs.Search.Accounts
import Milp.Proofs.SearchTree.Links

set_option autoImplicit false

namespace Milp.Search

variable {α : Type} [Number α]

/-! ## One turn -/

section Turn

variable {p : Program α} {tolerance : α} {s next : State α} {here : Pending α}
  {rest : List (Pending α)} {relaxation : Relaxation α} {n m : Node α} {more : List (Node α)}

/-- How a node is judged, and what becomes of the best point so far. -/
inductive Judged (p : Program α) (tolerance : α) (m : Node α) (best : Option (Incumbent α)) :
    Option (Incumbent α) → Prop
  | incumbent (mark : m.outcome = .incumbent)
      (better : beats p tolerance best (p.objectiveValue (snap p m.values)) = true) :
      Judged p tolerance m best (some ⟨snap p m.values, p.objectiveValue (snap p m.values)⟩)
  | integral (mark : m.outcome = .integral)
      (worse : beats p tolerance best (p.objectiveValue (snap p m.values)) = false) :
      Judged p tolerance m best best
  | pruned (bound : α) (mark : m.outcome = .pruned)
      (relaxed : m.relaxation = some bound) (worse : beats p tolerance best bound = false) :
      Judged p tolerance m best best
  | other
      (mark : m.outcome = .branched ∨ m.outcome = .infeasible ∨ m.outcome = .unbounded) :
      Judged p tolerance m best best

theorem Judged.outcome_ne_pending {best best' : Option (Incumbent α)}
    (h : Judged p tolerance m best best') : m.outcome ≠ .pending := by
  intro hpending
  cases h with
  | incumbent mark => simp [hpending] at mark
  | integral mark => simp [hpending] at mark
  | pruned bound mark => simp [hpending] at mark
  | other mark => simp [hpending] at mark

section Judged

variable {best best' : Option (Incumbent α)}

theorem Judged.of_incumbent (h : Judged p tolerance m best best')
    (mark : m.outcome = .incumbent) :
    beats p tolerance best (p.objectiveValue (snap p m.values)) = true
      ∧ best' = some ⟨snap p m.values, p.objectiveValue (snap p m.values)⟩ := by
  cases h with
  | incumbent _ better => exact ⟨better, rfl⟩
  | integral mark' => simp [mark] at mark'
  | pruned bound mark' => simp [mark] at mark'
  | other mark' => simp [mark] at mark'

theorem Judged.of_integral (h : Judged p tolerance m best best') (mark : m.outcome = .integral) :
    beats p tolerance best (p.objectiveValue (snap p m.values)) = false := by
  cases h with
  | integral _ worse => exact worse
  | incumbent mark' => simp [mark] at mark'
  | pruned bound mark' => simp [mark] at mark'
  | other mark' => simp [mark] at mark'

theorem Judged.of_pruned (h : Judged p tolerance m best best') (mark : m.outcome = .pruned) :
    ∃ bound, m.relaxation = some bound ∧ beats p tolerance best bound = false := by
  cases h with
  | pruned bound _ relaxed worse => exact ⟨bound, relaxed, worse⟩
  | incumbent mark' => simp [mark] at mark'
  | integral mark' => simp [mark] at mark'
  | other mark' => simp [mark] at mark'

/-- Only a marked node takes the place of the best point. -/
theorem Judged.eq_of_ne (h : Judged p tolerance m best best') (mark : m.outcome ≠ .incumbent) :
    best' = best := by
  cases h with
  | incumbent mark' => exact absurd mark' mark
  | integral => rfl
  | pruned => rfl
  | other => rfl

end Judged

/-- A turn: the pending node that was taken is judged, and new nodes are pending. -/
structure Turn (p : Program α) (tolerance : α) (s next : State α) (here : Pending α)
    (n m : Node α) (more : List (Node α)) : Prop where
  replaces : SearchTree.Replaces s.tree next.tree here.node n m more
  pending : n.outcome = .pending
  fresh : ∀ k ∈ more, k.outcome = .pending
  judged : Judged p tolerance m s.incumbent next.incumbent

variable (tolerance) in
/-- A node without a relaxation that was solved is marked. -/
theorem Turn.marked (h : Books p s) (hstack : s.stack = here :: rest) {outcome : NodeOutcome}
    (houtcome : outcome = .infeasible ∨ outcome = .unbounded) :
    ∃ n m, Turn p tolerance s ((s.taken rest).marked here.node outcome) here n m [] := by
  obtain ⟨n, hn, hpending, -, -⟩ := h.top hstack
  refine ⟨n, { n with outcome := outcome }, SearchTree.replaces_mark hn outcome, hpending, ?_, ?_⟩
  · simp
  · exact .other (.inr houtcome)

/-- **A node that is concluded** is replaced and judged. -/
theorem Concluded.exists_turn (h : Books p s) (hstack : s.stack = here :: rest)
    (hc : Concluded p tolerance (s.taken rest) here relaxation next) :
    ∃ n m more, Turn p tolerance s next here n m more := by
  obtain ⟨n, hn, hpending, hleaf, hunsolved⟩ := h.top hstack
  have hrecorded := fun values objective outcome =>
    SearchTree.replaces_recordRelaxation_mark (t := s.tree) hn values objective outcome
  cases hc with
  | infeasible =>
    obtain ⟨n, m, hturn⟩ := Turn.marked tolerance h hstack (.inl rfl)
    exact ⟨n, m, [], hturn⟩
  | unbounded below =>
    obtain ⟨n, m, hturn⟩ := Turn.marked tolerance h hstack (.inr rfl)
    exact ⟨n, m, [], hturn⟩
  | pruned values objective worse =>
    refine ⟨n, _, [], hrecorded values objective .pruned, hpending, by simp, ?_⟩
    exact .pruned objective rfl rfl worse
  | branched values objective column better chosen =>
    have hsplit := splitBy_split (p := p) (s := s.taken rest) hn hleaf values objective column
      (Number.valueAt values column)
    refine ⟨n, _, _, hsplit.replaces, hpending, fun k hk => pending_of_mem_children hk, ?_⟩
    rw [hsplit.keeps]
    exact .other (.inl hsplit.splitsInto.outcome)
  | accepted values objective better unsplit improves =>
    refine ⟨n, { n with relaxation := some objective, values := values, outcome := .incumbent },
      [], hrecorded values objective .incumbent, hpending, by simp, ?_⟩
    exact .incumbent rfl improves
  | integral values objective better unsplit fails =>
    refine ⟨n, { n with relaxation := some objective, values := values, outcome := .integral },
      [], hrecorded values objective .integral, hpending, by simp, ?_⟩
    exact .integral rfl fails

/-- After a turn the solved nodes are those from before it and the one that was taken. -/
theorem Turn.solved_iff (h : Turn p tolerance s next here n m more) (id : Nat) :
    (∃ k, next.tree.get? id = some k ∧ k.outcome ≠ .pending)
      ↔ (∃ k, s.tree.get? id = some k ∧ k.outcome ≠ .pending) ∨ id = here.node := by
  have hr := h.replaces
  constructor
  · rintro ⟨k, hk, hout⟩
    rcases hr.node_cases hk with ⟨-, hnew⟩ | ⟨hid, -⟩ | ⟨-, hold⟩
    · exact absurd (h.fresh k (List.mem_of_getElem? hnew)) hout
    · exact .inr hid
    · exact .inl ⟨k, hold, hout⟩
  · rintro (⟨k, hk, hout⟩ | hid)
    · have hne : id ≠ here.node := by
        intro hid
        rw [hid, hr.there, Option.some.injEq] at hk
        exact hout (hk ▸ h.pending)
      exact ⟨k, hr.get?_old hne hk, hout⟩
    · exact ⟨m, hid ▸ hr.get?_itself, h.judged.outcome_ne_pending⟩

end Turn

/-! ## What a turn does to the tree -/

section Tree

variable {p : Program α} {tolerance : α} {s next : State α} {here : Pending α}
  {relaxation : Relaxation α}

omit [Number α] in
/-- Adding an open child is a request. -/
theorem addOpen_fst (t : SearchTree α) (a : SearchTree.Addition α) (box : Box α) :
    (addOpen t a.parent a.side a.cut box).1 = t.after a := by
  rw [addOpen, SearchTree.after]
  cases t.addChild? a.parent a.side a.cut <;> rfl

/-- A split is two requests and a mark. -/
theorem tree_split (p : Program α) (s : State α) (here : Pending α) (column : Nat) (value : α) :
    (split p s here column value).tree
      = ((s.tree.after ⟨here.node, .left, ⟨s.cuts + 1, column, true, Number.floor value⟩⟩).after
          ⟨here.node, .right, ⟨s.cuts + 2, column, false, Number.ceil value⟩⟩).mark
            here.node .branched := by
  rw [← addOpen_fst _ _ (here.box.set column (upperHalf (boundsAt here.box column) value)),
    ← addOpen_fst s.tree _ (here.box.set column (lowerHalf (boundsAt here.box column) value))]
  rfl

/-- **Induction over what a turn does to the tree.** What requests keep, and notes on a
node that leave its links alone, holds after a turn if it held before. -/
theorem Concluded.tree_induction {P : SearchTree α → Prop}
    (request : ∀ t a, P t → P (t.after a))
    (note : ∀ t id change, (∀ n : Node α, (change n).bare = n.bare) → P t → P (t.modify id change))
    (hc : Concluded p tolerance s here relaxation next) (h : P s.tree) : P next.tree := by
  have hmark : ∀ t id outcome, P t → P (t.mark id outcome) :=
    fun t id outcome => note t id _ fun n => rfl
  have hrecord : ∀ values objective, P (s.tree.recordRelaxation here.node values objective) :=
    fun values objective => note s.tree here.node _ (fun n => rfl) h
  cases hc with
  | infeasible => exact hmark _ _ _ h
  | unbounded below => exact hmark _ _ _ h
  | pruned values objective worse => exact hmark _ _ _ (hrecord values objective)
  | branched values objective column better chosen =>
    rw [tree_split]
    exact hmark _ _ _ (request _ _ (request _ _ (hrecord values objective)))
  | accepted values objective better unsplit improves =>
    exact hmark _ _ _ (hrecord values objective)
  | integral values objective better unsplit fails =>
    exact hmark _ _ _ (hrecord values objective)

theorem Concluded.linked (hc : Concluded p tolerance s here relaxation next)
    (h : s.tree.Linked) : next.tree.Linked :=
  hc.tree_induction (P := SearchTree.Linked) (fun _ a hl => hl.after a)
    (fun _ id _ keeps hl => hl.modify keeps id) h

theorem Concluded.extends (hc : Concluded p tolerance s here relaxation next) :
    s.tree.Extends next.tree :=
  hc.tree_induction (P := s.tree.Extends) (fun t a h => h.trans (SearchTree.extends_after t a))
    (fun _ id _ keeps h => h.trans (SearchTree.extends_modify keeps id)) (.refl s.tree)

end Tree

/-! ## The turns of a run -/

section Run

variable {p : Program α} {limits : Limits α} {oracle : Oracle α} {watch : Nat → Sighting}
  {s next : State α} {k turn : Nat} {here : Pending α}

theorem solved?_eq_some_iff (hs : stateAfter? p limits oracle watch turn = some s) :
    solved? p limits oracle watch turn = some here
      ↔ haltStatus? limits turn (watch turn) = none ∧ s.stack.head? = some here := by
  rw [solved?, hs, Option.bind_some, explored_of_stateAfter? hs]
  cases haltStatus? limits turn (watch turn) <;> simp

/-- **The turn before a state** takes the top of the stack and concludes it. -/
theorem exists_concluded (hnext : stateAfter? p limits oracle watch (turn + 1) = some next) :
    ∃ s here rest relaxation, stateAfter? p limits oracle watch turn = some s
      ∧ solved? p limits oracle watch turn = some here ∧ s.stack = here :: rest
      ∧ Concluded p limits.tolerance (s.taken rest) here relaxation next := by
  obtain ⟨s, hs, hstep⟩ := stateAfter?_succ_eq_some_iff.mp hnext
  obtain ⟨here, rest, relaxation, hstack, hgoesOn, -, hc⟩ := step_proceed hstep
  rw [explored_of_stateAfter? hs] at hgoesOn
  have hsolved : solved? p limits oracle watch turn = some here := by
    rw [solved?_eq_some_iff hs, hstack]
    exact ⟨hgoesOn, rfl⟩
  exact ⟨s, here, rest, relaxation, hs, hsolved, hstack, hc⟩

theorem reachable_of_stateAfter? (hs : stateAfter? p limits oracle watch k = some s) :
    Reachable p limits oracle watch s :=
  reachable_iff.mpr ⟨k, hs⟩

/-- What is solved in a turn is pending before it. -/
theorem pending_of_solved? (hs : stateAfter? p limits oracle watch turn = some s)
    (hsolved : solved? p limits oracle watch turn = some here) :
    ∃ n, s.tree.get? here.node = some n ∧ n.outcome = .pending := by
  have hhead := ((solved?_eq_some_iff hs).mp hsolved).2
  obtain ⟨rest, hstack⟩ := List.head?_eq_some_iff.mp hhead
  obtain ⟨n, hn, hpending, -, -⟩ := (reachable_of_stateAfter? hs).books.top hstack
  exact ⟨n, hn, hpending⟩

/-! ### The list of solved nodes -/

/-- The nodes solved in the first turns, in the order in which they were solved. -/
def solvedIn (p : Program α) (limits : Limits α) (oracle : Oracle α) (watch : Nat → Sighting)
    (turns : Nat) : List Nat :=
  (List.range turns).filterMap fun turn => (solved? p limits oracle watch turn).map (·.node)

@[simp] theorem solvedIn_zero (p : Program α) (limits : Limits α) (oracle : Oracle α)
    (watch : Nat → Sighting) : solvedIn p limits oracle watch 0 = [] :=
  rfl

theorem solvedIn_succ (p : Program α) (limits : Limits α) (oracle : Oracle α)
    (watch : Nat → Sighting) (turns : Nat) :
    solvedIn p limits oracle watch (turns + 1)
      = solvedIn p limits oracle watch turns
        ++ ((solved? p limits oracle watch turns).map (·.node)).toList := by
  rw [solvedIn, List.range_succ, List.filterMap_append]
  cases h : solved? p limits oracle watch turns <;> simp [h, solvedIn]

/-- A node is on the list if some turn solved it. -/
theorem mem_solvedIn (turns id : Nat) :
    id ∈ solvedIn p limits oracle watch turns
      ↔ ∃ turn, turn < turns
        ∧ ∃ here, solved? p limits oracle watch turn = some here ∧ here.node = id := by
  simp [solvedIn]

/-- **The list and the tree agree** on what has been solved. -/
theorem mem_solvedIn_iff (hs : stateAfter? p limits oracle watch k = some s) (id : Nat) :
    id ∈ solvedIn p limits oracle watch k
      ↔ ∃ n, s.tree.get? id = some n ∧ n.outcome ≠ .pending := by
  induction k generalizing s with
  | zero =>
    obtain rfl : State.initial p = s := Option.some.inj hs
    rw [solvedIn_zero]
    refine iff_of_false (List.not_mem_nil) ?_
    rintro ⟨n, hn, hout⟩
    rw [(SearchTree.eq_of_get?_initial hn).2] at hout
    exact hout rfl
  | succ k ih =>
    obtain ⟨before, here, rest, relaxation, hbefore, hsolved, hstack, hc⟩ := exists_concluded hs
    obtain ⟨n, m, more, hturn⟩ :=
      hc.exists_turn (reachable_of_stateAfter? hbefore).books hstack
    rw [hturn.solved_iff, ← ih hbefore, solvedIn_succ, hsolved]
    simp

/-- **No node is solved twice.** -/
theorem nodup_solvedIn (p : Program α) (limits : Limits α) (oracle : Oracle α)
    (watch : Nat → Sighting) (turns : Nat) : (solvedIn p limits oracle watch turns).Nodup := by
  induction turns with
  | zero => exact List.nodup_nil
  | succ turns ih =>
    rw [solvedIn_succ]
    cases hsolved : solved? p limits oracle watch turns with
    | none => simpa using ih
    | some here =>
      -- what is solved now is pending, and what is on the list is not
      obtain ⟨s, hs⟩ := exists_state_of_solved? (Option.isSome_of_eq_some hsolved)
      obtain ⟨n, hn, hpending⟩ := pending_of_solved? hs hsolved
      have hfresh : here.node ∉ solvedIn p limits oracle watch turns := by
        rw [mem_solvedIn_iff hs]
        rintro ⟨m, hm, hout⟩
        rw [hn, Option.some.injEq] at hm
        exact hout (hm ▸ hpending)
      rw [Option.map_some, Option.toList_some]
      exact List.nodup_append'.mpr ⟨ih, List.nodup_singleton _, by simpa using hfresh⟩

/-! ### The tree along a run -/

/-- **The links are in step** in every state. -/
theorem Reachable.linked (reached : Reachable p limits oracle watch s) : s.tree.Linked := by
  apply reached.turns (P := fun s => s.tree.Linked) SearchTree.linked_initial
  intro s here rest relaxation next _ ih _ _ hc
  exact hc.linked (s := s.taken rest) ih

/-- **A later tree extends an earlier one.** -/
theorem extends_of_le {j : Nat} {later : State α} (hle : j ≤ k)
    (hs : stateAfter? p limits oracle watch j = some s)
    (hlater : stateAfter? p limits oracle watch k = some later) :
    s.tree.Extends later.tree := by
  induction k generalizing later with
  | zero =>
    have hj : j = 0 := by omega
    rw [hj, hlater, Option.some.injEq] at hs
    rw [hs]
    exact .refl s.tree
  | succ k ih =>
    by_cases hj : j = k + 1
    · rw [hj, hlater, Option.some.injEq] at hs
      rw [hs]
      exact .refl s.tree
    · obtain ⟨before, here, rest, relaxation, hbefore, -, -, hc⟩ := exists_concluded hlater
      have hturn : before.tree.Extends later.tree := hc.extends
      exact (ih (by omega) hbefore).trans hturn

end Run

end Milp.Search
