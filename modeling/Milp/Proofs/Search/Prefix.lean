/-
A search that is stopped is the beginning of the whole search.

`step` looks at the limits in one place, after it has seen that something is left on the
stack and before it asks the oracle. So two searches whose limits let the first `k` nodes
pass go through the same states up to there (`stateAfter?_eq_of_stopsAt`), and one that is
stopped then answers with the state it is in. What is compared is a search that nothing
stops with one that is stopped at `k` by any of the three: the number of nodes, a signal,
or the clock.

* If the whole search is over after `k` nodes or fewer, nothing was stopped, and the two
  answers are equal. This includes the search that ends with exactly the `k`-th node,
  since the empty stack is noticed first.
* Otherwise the answer is that of the state after `k` turns (`stopped_cases`).

Every oracle is covered that always answers, and every tolerance. The last part, that more
nodes never cost anything, is `noWorse_of_le` and needs the laws of order.
-/
import Milp.Proofs.Search.Improvement

set_option autoImplicit false

namespace Milp.Search

open Number (Lawful Absorbing)

variable {α : Type}

/-! ## Stops -/

/-- Neither a signal nor the clock stops the search. -/
def Quiet (limits : Limits α) (sighting : Sighting) : Prop :=
  sighting.stopped = false ∧ sighting.elapsed.nanoseconds < limits.timeLimit.nanoseconds

/-- Nothing stops a search, however many nodes it explores. -/
structure Unstopped (limits : Limits α) (watch : Nat → Sighting) : Prop where
  uncounted : limits.nodeLimit = none
  quiet : ∀ explored, Quiet limits (watch explored)

/-- **The ways to be stopped** after `k` nodes, and not before. -/
inductive StopsAt (limits : Limits α) (watch : Nat → Sighting) (k : Nat) : Answer.Status → Prop
  | nodeLimit (limit : limits.nodeLimit = some k)
      (quiet : ∀ explored, explored ≤ k → Quiet limits (watch explored)) :
      StopsAt limits watch k .nodeLimit
  | interrupted (uncounted : ∀ limit, limits.nodeLimit = some limit → k ≤ limit)
      (quiet : ∀ explored, explored < k → Quiet limits (watch explored))
      (signal : (watch k).stopped = true) :
      StopsAt limits watch k .interrupted
  | timeLimit (uncounted : ∀ limit, limits.nodeLimit = some limit → k ≤ limit)
      (quiet : ∀ explored, explored < k → Quiet limits (watch explored))
      (unsignalled : (watch k).stopped = false)
      (late : limits.timeLimit.nanoseconds ≤ (watch k).elapsed.nanoseconds) :
      StopsAt limits watch k .timeLimit

section Stops

variable {limits : Limits α} {sighting : Sighting} {watch : Nat → Sighting} {explored k : Nat}
  {status : Answer.Status}

/-- The search goes on where it is quiet and the count has not been reached. -/
theorem haltStatus?_eq_none_iff :
    haltStatus? limits explored sighting = none
      ↔ Quiet limits sighting ∧ ∀ limit, limits.nodeLimit = some limit → explored < limit := by
  rw [haltStatus?, Quiet]
  by_cases hstopped : sighting.stopped = true
  · simp [hstopped]
  by_cases hlate : limits.timeLimit.nanoseconds ≤ sighting.elapsed.nanoseconds
  · simp [hstopped, hlate]
  cases hlimit : limits.nodeLimit with
  | none => simp [hstopped, Nat.not_le.mp hlate]
  | some limit => simp [hstopped, hlate, Nat.not_le.mp hlate]

theorem Unstopped.goesOn (h : Unstopped limits watch) (explored : Nat) :
    haltStatus? limits explored (watch explored) = none :=
  haltStatus?_eq_none_iff.mpr
    ⟨h.quiet explored, fun limit hlimit => by rw [h.uncounted] at hlimit; cases hlimit⟩

theorem StopsAt.goesOn (h : StopsAt limits watch k status) (hlt : explored < k) :
    haltStatus? limits explored (watch explored) = none := by
  rw [haltStatus?_eq_none_iff]
  cases h with
  | nodeLimit limit quiet =>
    refine ⟨quiet explored (by omega), fun other hother => ?_⟩
    rw [limit, Option.some.injEq] at hother
    omega
  | interrupted uncounted quiet signal =>
    exact ⟨quiet explored hlt, fun limit hlimit => Nat.lt_of_lt_of_le hlt (uncounted limit hlimit)⟩
  | timeLimit uncounted quiet unsignalled late =>
    exact ⟨quiet explored hlt, fun limit hlimit => Nat.lt_of_lt_of_le hlt (uncounted limit hlimit)⟩

theorem StopsAt.halts (h : StopsAt limits watch k status) :
    haltStatus? limits k (watch k) = some status := by
  rw [haltStatus?]
  cases h with
  | nodeLimit limit quiet =>
    obtain ⟨hstopped, htime⟩ := quiet k (Nat.le_refl k)
    simp [hstopped, Nat.not_le.mpr htime, limit]
  | interrupted uncounted quiet signal => rw [if_pos signal]
  | timeLimit uncounted quiet unsignalled late => simp [unsignalled, late]

theorem StopsAt.ne_unbounded (h : StopsAt limits watch k status) : status ≠ .unbounded := by
  cases h <;> simp

end Stops

/-! ## What is solved -/

variable [Number α]

/-- The subproblem that is solved in a turn, if that turn is taken. -/
def solved? (p : Program α) (limits : Limits α) (oracle : Oracle α) (watch : Nat → Sighting)
    (turn : Nat) : Option (Pending α) :=
  (stateAfter? p limits oracle watch turn).bind fun s =>
    if (haltStatus? limits s.explored (watch s.explored)).isSome then none else s.stack.head?

section Solved

variable {p : Program α} {limits : Limits α} {oracle : Oracle α} {watch : Nat → Sighting}
  {s : State α} {k turn : Nat}

theorem solved?_isSome_iff (hs : stateAfter? p limits oracle watch turn = some s) :
    (solved? p limits oracle watch turn).isSome = true
      ↔ haltStatus? limits turn (watch turn) = none ∧ s.stack ≠ [] := by
  rw [solved?, hs, Option.bind_some, explored_of_stateAfter? hs]
  cases haltStatus? limits turn (watch turn) <;> simp

/-- Before every state that is reached something was solved. -/
theorem solved?_isSome_of_lt (hs : stateAfter? p limits oracle watch k = some s)
    (hlt : turn < k) : (solved? p limits oracle watch turn).isSome = true := by
  have hnext := stateAfter?_isSome_of_le hlt (Option.isSome_of_eq_some hs)
  obtain ⟨next, hnext⟩ := Option.isSome_iff_exists.mp hnext
  obtain ⟨before, hbefore, hstep⟩ := stateAfter?_succ_eq_some_iff.mp hnext
  obtain ⟨here, rest, relaxation, hstack, hhalt, -, -⟩ := step_proceed hstep
  rw [solved?_isSome_iff hbefore, hstack]
  rw [explored_of_stateAfter? hbefore] at hhalt
  exact ⟨hhalt, List.cons_ne_nil here rest⟩

theorem exists_state_of_solved? (h : (solved? p limits oracle watch turn).isSome = true) :
    ∃ s, stateAfter? p limits oracle watch turn = some s := by
  rw [solved?] at h
  cases hs : stateAfter? p limits oracle watch turn with
  | none => simp [hs] at h
  | some s => exact ⟨s, rfl⟩

/-- Nothing is solved once the search has been stopped. -/
theorem solved?_eq_none_of_halted {status : Answer.Status}
    (halts : haltStatus? limits k (watch k) = some status) (hle : k ≤ turn) :
    solved? p limits oracle watch turn = none := by
  by_contra hne
  have hsome := Option.isSome_iff_ne_none.mpr hne
  obtain ⟨s, hs⟩ := exists_state_of_solved? hsome
  -- then something would have been solved in turn `k` too
  have hthere : (solved? p limits oracle watch k).isSome = true := by
    by_cases heq : k = turn
    · rw [heq]
      exact hsome
    · exact solved?_isSome_of_lt hs (by omega)
  obtain ⟨before, hbefore⟩ := exists_state_of_solved? hthere
  have hgoesOn := ((solved?_isSome_iff hbefore).mp hthere).1
  rw [halts] at hgoesOn
  cases hgoesOn

/-- There is no state after a last turn. -/
theorem stateAfter?_eq_none_of_lt (hs : stateAfter? p limits oracle watch k = some s)
    (last : ∀ next, step p limits oracle (watch s.explored) s ≠ .proceed next)
    (hlt : k < turn) : stateAfter? p limits oracle watch turn = none := by
  by_contra hne
  have hnext := stateAfter?_isSome_of_le hlt (Option.isSome_iff_ne_none.mpr hne)
  obtain ⟨next, hnext⟩ := Option.isSome_iff_exists.mp hnext
  obtain ⟨before, hbefore, hstep⟩ := stateAfter?_succ_eq_some_iff.mp hnext
  rw [hs, Option.some.injEq] at hbefore
  rw [hbefore] at last
  exact last next hstep

theorem solved?_eq_none_of_lt (hs : stateAfter? p limits oracle watch k = some s)
    (last : ∀ next, step p limits oracle (watch s.explored) s ≠ .proceed next)
    (hlt : k < turn) : solved? p limits oracle watch turn = none := by
  rw [solved?, stateAfter?_eq_none_of_lt hs last hlt, Option.bind_none]

/-- **The number of nodes** in an answer is the number of turns in which something was
solved. -/
theorem solved?_isSome_iff_lt_nodes {steps : Nat} {answer : Answer α}
    (h : run p limits oracle watch steps = .answered answer) :
    (solved? p limits oracle watch turn).isSome = true ↔ turn < answer.nodes := by
  obtain ⟨j, s, last, status, -, hs, hstep, rfl⟩ := last_turn_of_answered h
  have hlast : ∀ next, step p limits oracle (watch s.explored) s ≠ .proceed next := by
    rw [hstep]
    simp
  have hcount := explored_of_stateAfter? hs
  have hstepped := stepped p limits oracle (watch s.explored) s
  rw [hstep, hcount] at hstepped
  show _ ↔ turn < last.explored
  -- before the last turn something is solved, and after it nothing
  rcases Nat.lt_trichotomy turn j with hlt | rfl | hgt
  · refine iff_of_true (solved?_isSome_of_lt hs hlt) ?_
    cases hstepped with
    | exhausted empty => omega
    | halted here rest status top halts => omega
    | rootUnbounded here rest top goesOn answers root =>
      show turn < s.explored + 1
      omega
  · rw [solved?_isSome_iff hs]
    cases hstepped with
    | exhausted empty => simp [empty, hcount]
    | halted here rest status top halts =>
      rw [hcount] at halts
      simp [halts, hcount]
    | rootUnbounded here rest top goesOn answers root =>
      rw [hcount] at goesOn
      simp [goesOn, top, State.marked, State.taken, hcount]
  · rw [solved?_eq_none_of_lt hs hlast hgt]
    cases hstepped with
    | exhausted empty => simp; omega
    | halted here rest status top halts => simp; omega
    | rootUnbounded here rest top goesOn answers root =>
      simp [State.marked, State.taken]
      omega

end Solved

/-! ## Two searches -/

section Stopped

variable {p : Program α} {limits other : Limits α} {oracle : Oracle α}
  {watch glance : Nat → Sighting} {s : State α} {k : Nat} {status : Answer.Status}

/-- Searches with the same tolerance take the same turn where the limits say the same. -/
theorem step_eq_of_haltStatus?_eq (same : other.tolerance = limits.tolerance)
    {here there : Sighting}
    (h : haltStatus? other s.explored there = haltStatus? limits s.explored here) :
    step p other oracle there s = step p limits oracle here s := by
  unfold step
  rw [same, h]

variable (p oracle) in
/-- **Up to its stop** a search goes through the states of the whole search. -/
theorem stateAfter?_eq_of_stopsAt (same : other.tolerance = limits.tolerance)
    (free : Unstopped limits watch) (stops : StopsAt other glance k status) {j : Nat}
    (hle : j ≤ k) :
    stateAfter? p other oracle glance j = stateAfter? p limits oracle watch j := by
  induction j with
  | zero => rfl
  | succ j ih =>
    rw [stateAfter?, stateAfter?, ih (by omega)]
    cases hs : stateAfter? p limits oracle watch j with
    | none => rfl
    | some s =>
      have hcount := explored_of_stateAfter? hs
      have hstep : step p other oracle (glance s.explored) s
          = step p limits oracle (watch s.explored) s := by
        apply step_eq_of_haltStatus?_eq same
        rw [free.goesOn, stops.goesOn (by omega)]
      rw [Option.bind_some, Option.bind_some, hstep]

variable (p oracle) in
/-- A search that is stopped solves the first `k` subproblems of the whole search. -/
theorem solved?_eq_of_stopsAt (same : other.tolerance = limits.tolerance)
    (free : Unstopped limits watch) (stops : StopsAt other glance k status) (turn : Nat) :
    solved? p other oracle glance turn
      = if turn < k then solved? p limits oracle watch turn else none := by
  by_cases hlt : turn < k
  · rw [if_pos hlt, solved?, solved?, stateAfter?_eq_of_stopsAt p oracle same free stops (by omega)]
    cases hs : stateAfter? p limits oracle watch turn with
    | none => rfl
    | some s =>
      have hcount := explored_of_stateAfter? hs
      rw [Option.bind_some, Option.bind_some, free.goesOn, stops.goesOn (by omega)]
  · rw [if_neg hlt]
    exact solved?_eq_none_of_halted stops.halts (by omega)

/-- A last turn adds at most one node. -/
theorem explored_le_of_finished {sighting : Sighting} {last : State α}
    (h : step p limits oracle sighting s = .finished last status) :
    last.explored ≤ s.explored + 1 := by
  have hstepped := stepped p limits oracle sighting s
  rw [h] at hstepped
  cases hstepped with
  | exhausted empty => omega
  | halted here rest status top halts => omega
  | rootUnbounded here rest top goesOn answers root => exact Nat.le_refl (s.explored + 1)

/-- **What a stop comes to.** Either the whole search is over by then, and both answer the
same, or the answer is that of the state after `k` turns. -/
theorem stopped_cases (same : other.tolerance = limits.tolerance)
    (free : Unstopped limits watch) (stops : StopsAt other glance k status)
    (total : ∀ box, ∃ relaxation, oracle box = .ok relaxation) :
    (∃ answer : Answer α, answer.nodes ≤ k
        ∧ ∀ steps, k < steps → run p other oracle glance steps = .answered answer
          ∧ run p limits oracle watch steps = .answered answer)
      ∨ ∃ s, stateAfter? p limits oracle watch k = some s ∧ s.stack ≠ []
        ∧ ∀ steps, k < steps → run p other oracle glance steps = .answered (s.answer status) := by
  cases hk : stateAfter? p limits oracle watch k with
  | none =>
    -- the last turn is before the stop, where both searches do the same
    obtain ⟨j, s, hj, hs, hlast⟩ := exists_last_turn hk
    have hcount := explored_of_stateAfter? hs
    have hother := stateAfter?_eq_of_stopsAt p oracle same free stops hj.le
    rw [hs] at hother
    have hstep : step p other oracle (glance s.explored) s
        = step p limits oracle (watch s.explored) s := by
      apply step_eq_of_haltStatus?_eq same
      rw [free.goesOn, stops.goesOn (by omega)]
    cases hends : step p limits oracle (watch s.explored) s with
    | proceed next => exact absurd hends (hlast next)
    | failed fault =>
      obtain ⟨here, rest, -, hfault⟩ := step_failed hends
      obtain ⟨relaxation, hok⟩ := total here.box
      rw [hok] at hfault
      cases hfault
    | finished last ending =>
      have hnodes : last.explored ≤ s.explored + 1 := explored_le_of_finished hends
      refine .inl ⟨last.answer ending, ?_, fun steps hsteps => ⟨?_, ?_⟩⟩
      · show last.explored ≤ k
        omega
      · rw [run_of_last_turn hother (hstep ▸ hlast) (by omega), hstep, hends, Step.ending]
      · rw [run_of_last_turn hs hlast (by omega), hends, Step.ending]
  | some s =>
    have hcount := explored_of_stateAfter? hk
    have hother := stateAfter?_eq_of_stopsAt p oracle same free stops le_rfl
    rw [hk] at hother
    by_cases hstack : s.stack = []
    · -- that nothing is left is noticed before any of the limits
      have hempty : ∀ (l : Limits α) (sighting : Sighting), step p l oracle sighting s
          = .finished s (if s.incumbent.isSome then .optimal else .infeasible) := by
        intro l sighting
        rw [step, hstack]
      refine .inl ⟨s.answer (if s.incumbent.isSome then .optimal else .infeasible), hcount.le,
        fun steps hsteps => ⟨?_, ?_⟩⟩
      · rw [run_of_last_turn hother (by simp [hempty]) hsteps, hempty, Step.ending]
      · rw [run_of_last_turn hk (by simp [hempty]) hsteps, hempty, Step.ending]
    · have hhalts : step p other oracle (glance s.explored) s = .finished s status := by
        obtain ⟨here, rest, htop⟩ := List.exists_cons_of_ne_nil hstack
        have := stops.halts
        simp only [step, htop, hcount, this]
      refine .inr ⟨s, rfl, hstack, fun steps hsteps => ?_⟩
      rw [run_of_last_turn hother (by simp [hhalts]) hsteps, hhalts, Step.ending]

/-- A search that still has something on its stack after `k` turns explores more nodes. -/
theorem lt_nodes_of_stack_ne_nil (free : Unstopped limits watch)
    (hs : stateAfter? p limits oracle watch k = some s) (hstack : s.stack ≠ []) {steps : Nat}
    {whole : Answer α} (h : run p limits oracle watch steps = .answered whole) :
    k < whole.nodes := by
  rw [← solved?_isSome_iff_lt_nodes h, solved?_isSome_iff hs]
  exact ⟨free.goesOn k, hstack⟩

end Stopped

/-! ## The beginning of the whole search -/

/-- **What the answer of a search stopped after `k` nodes has to do with the whole
search.** -/
structure Begins (p : Program α) (limits : Limits α) (oracle : Oracle α)
    (watch : Nat → Sighting) (other : Limits α) (glance : Nat → Sighting) (k : Nat)
    (status : Answer.Status) (answer : Answer α) : Prop where
  answers : ∀ steps, k < steps → run p other oracle glance steps = .answered answer
  /-- It solves the first `k` subproblems of the whole search, in the same order. -/
  solves : ∀ turn, solved? p other oracle glance turn
    = if turn < k then solved? p limits oracle watch turn else none
  /-- Its count says how many it has solved. -/
  counts : ∀ turn, (solved? p other oracle glance turn).isSome = true ↔ turn < answer.nodes
  /-- If the whole search ends, it explores as many nodes as that, or `k`; and where those
  are enough, it gives the same answer. -/
  ended : ∀ steps whole, run p limits oracle watch steps = .answered whole →
    answer.nodes = min k whole.nodes ∧ (whole.nodes ≤ k → answer = whole)
  /-- If the whole search takes more nodes, or does not end, the answer is what that search
  had after `k` of them. -/
  cut : (∀ steps whole, run p limits oracle watch steps = .answered whole → k < whole.nodes) →
    answer.nodes = k ∧ ∃ s, stateAfter? p limits oracle watch k = some s
      ∧ answer = { s.answer .nodeLimit with status := status }

section Beginning

variable {p : Program α} {limits other : Limits α} {oracle : Oracle α}
  {watch glance : Nat → Sighting} {s : State α} {k : Nat} {status : Answer.Status}

omit [Number α] in
/-- The answers of a state differ in their status only, unless there is no bound. -/
theorem State.answer_eq (s : State α) (bounded : status ≠ .unbounded) :
    s.answer status = { s.answer .nodeLimit with status := status } := by
  have hbounded : (status == Answer.Status.unbounded) = false := by simpa using bounded
  simp [State.answer, hbounded]

theorem exists_begins (same : other.tolerance = limits.tolerance)
    (free : Unstopped limits watch) (stops : StopsAt other glance k status)
    (total : ∀ box, ∃ relaxation, oracle box = .ok relaxation) :
    ∃ answer, Begins p limits oracle watch other glance k status answer := by
  have hsolves := solved?_eq_of_stopsAt p oracle same free stops
  rcases stopped_cases (p := p) same free stops total with
    ⟨answer, hnodes, hruns⟩ | ⟨s, hs, hstack, hruns⟩
  · have hanswers := fun steps hsteps => (hruns steps hsteps).1
    have hwhole := (hruns (k + 1) (by omega)).2
    refine ⟨answer, hanswers, hsolves, fun turn => ?_, fun steps whole h => ?_, fun hmore => ?_⟩
    · exact solved?_isSome_iff_lt_nodes (hanswers (k + 1) (by omega))
    · obtain rfl := answered_unique hwhole h
      exact ⟨by omega, fun _ => rfl⟩
    · have := hmore (k + 1) answer hwhole
      omega
  · have hcount := explored_of_stateAfter? hs
    refine ⟨s.answer status, hruns, hsolves, fun turn => ?_, fun steps whole h => ?_, fun _ => ?_⟩
    · exact solved?_isSome_iff_lt_nodes (hruns (k + 1) (by omega))
    · have hmore := lt_nodes_of_stack_ne_nil free hs hstack h
      refine ⟨?_, fun hle => ?_⟩
      · show s.explored = _
        omega
      · omega
    · exact ⟨hcount, s, hs, s.answer_eq stops.ne_unbounded⟩

/-! ## More nodes -/

omit [Number α] in
/-- Where there is an objective, there are values. -/
theorem State.exists_values {old : α} (h : (s.answer status).objective = some old) :
    ∃ values, (s.answer status).values = some values := by
  by_cases hunbounded : status = .unbounded
  · simp [State.answer, hunbounded] at h
  · obtain ⟨hvalues, hobjective⟩ := s.values_answer hunbounded
    rw [hobjective, Option.map_eq_some_iff] at h
    obtain ⟨best, hbest, -⟩ := h
    exact ⟨best.values, by rw [hvalues, hbest, Option.map_some]⟩

/-- What is no worse as an incumbent is no worse as an answer. -/
theorem NoWorse.answer {later : State α} {ending : Answer.Status} {old : α}
    (h : NoWorse p s.incumbent later.incumbent) (bounded : status ≠ .unbounded)
    (ends : ending ≠ .unbounded) (hold : (s.answer status).objective = some old) :
    ∃ values new, (later.answer ending).values = some values
      ∧ (later.answer ending).objective = some new
      ∧ (new = old ∨ p.sense.ahead new old = true) := by
  rw [(s.values_answer bounded).2, Option.map_eq_some_iff] at hold
  obtain ⟨best, hbest, hobjective⟩ := hold
  obtain ⟨better, hbetter, hnew⟩ := h best hbest
  obtain ⟨hvalues, hobjectives⟩ := later.values_answer ends
  rw [hobjective] at hnew
  exact ⟨better.values, better.objective, by rw [hvalues, hbetter, Option.map_some],
    by rw [hobjectives, hbetter, Option.map_some], hnew⟩

variable [Lawful α] [Absorbing α]

/-- The whole search ends with an incumbent no worse than any it had. -/
theorem noWorse_of_answered (free : Unstopped limits watch)
    (hs : stateAfter? p limits oracle watch k = some s) {best : Incumbent α}
    (hbest : s.incumbent = some best) {steps : Nat} {whole : Answer α}
    (h : run p limits oracle watch steps = .answered whole) :
    ∃ (later : State α) (ending : Answer.Status), ending ≠ .unbounded ∧ whole = later.answer ending
      ∧ NoWorse p s.incumbent later.incumbent := by
  obtain ⟨j, later, last, ending, -, hlater, hstep, rfl⟩ := last_turn_of_answered h
  have hlast : ∀ next, step p limits oracle (watch later.explored) later ≠ .proceed next := by
    rw [hstep]
    simp
  have hle : k ≤ j := by
    by_contra hgt
    rw [stateAfter?_eq_none_of_lt hlater hlast (by omega)] at hs
    cases hs
  have hstepped := stepped p limits oracle (watch later.explored) later
  rw [hstep] at hstepped
  cases hstepped with
  | exhausted empty =>
    exact ⟨later, _, by split <;> simp, rfl, noWorse_of_le hle hs hlater⟩
  | halted here rest status top halts =>
    rw [free.goesOn] at halts
    cases halts
  | rootUnbounded here rest top goesOn answers root =>
    -- the root is on the stack at the start only, and then there was no incumbent
    have hpast : PastRoot p later := (reachable_iff.mpr ⟨j, hlater⟩).pastRoot
    rcases hpast with hinitial | ⟨hroot, -⟩
    · have hj : later.explored = 0 := by
        rw [hinitial]
        rfl
      have hk : k = 0 := by
        have := explored_of_stateAfter? hlater
        omega
      rw [hk, stateAfter?, Option.some.injEq] at hs
      rw [← hs] at hbest
      cases hbest
    · exact absurd root (hroot here (top ▸ List.mem_cons_self))

/-- **More nodes cost nothing.** If a search that was stopped has an objective, then one
that was stopped later has the same or a better one. -/
theorem objective_of_stopped_later (free : Unstopped limits watch)
    (total : ∀ box, ∃ relaxation, oracle box = .ok relaxation)
    {few many : Limits α} {gaze : Nat → Sighting} {m : Nat} {ending : Answer.Status}
    (hfew : few.tolerance = limits.tolerance) (hmany : many.tolerance = limits.tolerance)
    (first : StopsAt few glance k status) (second : StopsAt many gaze m ending) (hle : k ≤ m)
    {a b : Answer α} {i j : Nat} (ha : run p few oracle glance i = .answered a)
    (hb : run p many oracle gaze j = .answered b) {old : α} (hold : a.objective = some old) :
    ∃ values new, b.values = some values ∧ b.objective = some new
      ∧ (new = old ∨ p.sense.ahead new old = true) := by
  rcases stopped_cases (p := p) hfew free first total with
    ⟨whole, hnodes, hruns⟩ | ⟨s, hs, hstack, hruns⟩
  -- the whole search was over by the first stop: it is the answer both times
  · obtain ⟨hrun, hwhole⟩ := hruns (k + 1) (by omega)
    obtain rfl := answered_unique ha hrun
    rcases stopped_cases (p := p) hmany free second total with
      ⟨other, -, hlater⟩ | ⟨s, hs, hstack, -⟩
    · obtain ⟨hrun', hwhole'⟩ := hlater (m + 1) (by omega)
      obtain rfl := answered_unique hb hrun'
      obtain rfl := answered_unique hwhole hwhole'
      obtain ⟨-, -, last, status, -, -, -, rfl⟩ := last_turn_of_answered ha
      obtain ⟨values, hvalues⟩ := State.exists_values hold
      exact ⟨values, old, hvalues, hold, .inl rfl⟩
    · have := lt_nodes_of_stack_ne_nil free hs hstack hwhole
      omega
  · obtain rfl := answered_unique ha (hruns (k + 1) (by omega))
    obtain ⟨best, hbest, -⟩ : ∃ best, s.incumbent = some best ∧ best.objective = old := by
      rw [(s.values_answer first.ne_unbounded).2, Option.map_eq_some_iff] at hold
      exact hold
    rcases stopped_cases (p := p) hmany free second total with
      ⟨whole, -, hlater⟩ | ⟨later, hs', -, hlater⟩
    · obtain ⟨hrun, hwhole⟩ := hlater (m + 1) (by omega)
      obtain rfl := answered_unique hb hrun
      obtain ⟨later, st, hst, rfl, hnoWorse⟩ := noWorse_of_answered free hs hbest hwhole
      exact hnoWorse.answer first.ne_unbounded hst hold
    · obtain rfl := answered_unique hb (hlater (m + 1) (by omega))
      exact (noWorse_of_le hle hs hs').answer first.ne_unbounded second.ne_unbounded hold

end Beginning

/-- **A stopped search is the beginning of the whole one.** Take a search that nothing
stops, for any tolerance and any oracle that always answers. One with the same tolerance
that is stopped after `k` nodes, by their number, by a signal or by the clock, answers, and
its answer is that of the whole search up to there. Of two that are stopped, the later one
has an incumbent if the earlier one has, and no worse a one. -/
theorem stopped_search_begins (p : Program α) (limits : Limits α) (oracle : Oracle α)
    (watch : Nat → Sighting) (total : ∀ box, ∃ relaxation, oracle box = .ok relaxation)
    (free : Unstopped limits watch) :
    (∀ (other : Limits α) (glance : Nat → Sighting) (k : Nat) (status : Answer.Status),
        other.tolerance = limits.tolerance → StopsAt other glance k status →
        ∃ answer, Begins p limits oracle watch other glance k status answer)
      ∧ ∀ [Lawful α] [Absorbing α] (few many : Limits α) (glance gaze : Nat → Sighting)
          (k m : Nat) (status ending : Answer.Status),
        few.tolerance = limits.tolerance → many.tolerance = limits.tolerance →
        StopsAt few glance k status → StopsAt many gaze m ending → k ≤ m →
        ∀ (i j : Nat) (a b : Answer α) (old : α),
          run p few oracle glance i = .answered a → run p many oracle gaze j = .answered b →
          a.objective = some old →
          ∃ values new, b.values = some values ∧ b.objective = some new
            ∧ (new = old ∨ p.sense.ahead new old = true) := by
  constructor
  · intro other glance k status same stops
    exact exists_begins same free stops total
  · intro _ _ few many glance gaze k m status ending hfew hmany first second hle i j a b old ha hb
      hold
    exact objective_of_stopped_later free total hfew hmany first second hle ha hb hold

/-- The relaxations of `twoIncumbents`; a box for which there is none counts as empty. -/
def steady : Oracle ExtRat := fun box =>
  match twoIncumbents.relax 0 box with
  | .ok relaxation => .ok relaxation
  | .error _ => .ok .infeasible

/-- No more than two nodes. -/
def twoNodes : Limits ExtRat := ⟨⟨1⟩, some 2, .fin 0, false⟩

/-- Stopped after two nodes the search has the first of its two incumbents; a signal before
the fourth node comes too late to take the second one from it. -/
theorem stopped_search_begins_twoIncumbents :
    ∃ a b : Answer ExtRat,
      Begins twoIncumbents exactLimits steady (fun _ => ⟨false, .zero⟩)
          twoNodes (fun _ => ⟨false, .zero⟩) 2 .nodeLimit a
        ∧ Begins twoIncumbents exactLimits steady (fun _ => ⟨false, .zero⟩)
          exactLimits (fun explored => ⟨explored == 3, .zero⟩) 3 .interrupted b
        ∧ a.objective = some (.fin 0)
        ∧ ∃ values new, b.values = some values ∧ b.objective = some new
          ∧ (new = .fin 0 ∨ twoIncumbents.sense.ahead new (.fin 0) = true) := by
  have htotal : ∀ box, ∃ relaxation, steady box = .ok relaxation := by
    intro box
    rw [steady]
    split
    · exact ⟨_, rfl⟩
    · exact ⟨.infeasible, rfl⟩
  have htime : Duration.zero.nanoseconds < 1 := by decide
  have hfree : Unstopped exactLimits (fun _ => ⟨false, .zero⟩) := ⟨rfl, fun _ => ⟨rfl, htime⟩⟩
  have hfirst : StopsAt twoNodes (fun _ => ⟨false, .zero⟩) 2 .nodeLimit :=
    .nodeLimit rfl fun _ _ => ⟨rfl, htime⟩
  have hsecond : StopsAt exactLimits (fun explored => ⟨explored == 3, .zero⟩) 3 .interrupted := by
    refine .interrupted (fun limit h => by cases h) (fun explored hlt => ⟨?_, htime⟩) rfl
    simpa using Nat.ne_of_lt hlt
  obtain ⟨hbegins, hlater⟩ :=
    stopped_search_begins twoIncumbents exactLimits steady _ htotal hfree
  obtain ⟨a, ha⟩ := hbegins twoNodes _ 2 _ rfl hfirst
  obtain ⟨b, hb⟩ := hbegins exactLimits _ 3 _ rfl hsecond
  have hobjective : a.objective = some (.fin 0) := by
    have hrun : (run twoIncumbents twoNodes steady (fun _ => ⟨false, .zero⟩) 3).answer?.map
        (·.objective) = some (some (.fin 0)) := by decide +kernel
    rw [ha.answers 3 (by omega), Run.answer?, Option.map_some, Option.some.injEq] at hrun
    exact hrun
  exact ⟨a, b, ha, hb, hobjective, hlater twoNodes exactLimits _ _ 2 3 _ _ rfl rfl hfirst hsecond
    (by omega) 3 4 a b _ (ha.answers 3 (by omega)) (hb.answers 4 (by omega)) hobjective⟩

end Milp.Search
