/-
Incumbents only improve.

A node is compared with the incumbent of its turn, and by then that is rarely the one that
is returned. It is compared twice, with the optimum of its relaxation and with the
objective of the rounded point. `Succeeds` is what is true of both comparisons at every
time: the points that were accepted form a chain, each better than all before it by more
than the tolerance, and what was turned down does not beat the end of the chain.

The chain is taken in the order in which nodes were solved, which is not the order of the
table. What carries the induction is `beats_eq_false_of_beats`: what does not beat one
incumbent does not beat a better one. This needs a tolerance that is not negative.
-/
import Milp.Proofs.Search.Order

set_option autoImplicit false

namespace Milp

/-! ## Improving by a margin -/

namespace Sense

variable {α : Type} [Number α] [Number.Lawful α]

/-- What is ahead of an improvement is an improvement. -/
theorem improves_of_ahead {sense : Sense} {a b c margin : α} (hcb : sense.ahead c b = true)
    (hba : sense.improves b a margin = true) : sense.improves c a margin = true := by
  cases sense with
  | minimize => exact Number.lt_trans_of_lawful hcb hba
  | maximize => exact Number.lt_trans_of_lawful hba hcb

theorem improves_trans {sense : Sense} {a b c margin : α}
    (nonneg : Number.le 0 margin = true) (hba : sense.improves b a margin = true)
    (hcb : sense.improves c b margin = true) : sense.improves c a margin = true :=
  improves_of_ahead (ahead_of_improves nonneg hcb) hba

end Sense

namespace Search

open Number (Lawful)

variable {α : Type} [Number α]

/-! ## The objectives of marked nodes -/

/-- The objective of the rounded point of a node, if the node is marked as an incumbent. -/
def crownedObjective? (p : Program α) (t : SearchTree α) (i : Nat) : Option α :=
  (t.get? i).bind fun n =>
    if n.outcome = .incumbent then some (p.objectiveValue (snap p n.values)) else none

/-- The objectives of the marked nodes among some nodes, in the order of these. -/
def crownedObjectives (p : Program α) (t : SearchTree α) (order : List Nat) : List α :=
  order.filterMap (crownedObjective? p t)

section Turn

variable {p : Program α} {tolerance : α} {s next : State α} {here : Pending α} {n m : Node α}
  {more : List (Node α)} {order : List Nat} {best best' : Option (Incumbent α)} {x : α}

/-- After a turn, the node that was taken comes last. -/
theorem crownedObjectives_concat (h : SearchTree.Replaces s.tree next.tree here.node n m more)
    (fresh : here.node ∉ order) (there : ∀ i ∈ order, ∃ k, s.tree.get? i = some k) :
    crownedObjectives p next.tree (order ++ [here.node])
      = crownedObjectives p s.tree order
        ++ if m.outcome = .incumbent then [p.objectiveValue (snap p m.values)] else [] := by
  have hold : order.filterMap (crownedObjective? p next.tree)
      = order.filterMap (crownedObjective? p s.tree) := by
    apply List.filterMap_congr
    intro i hi
    obtain ⟨k, hk⟩ := there i hi
    have hne : i ≠ here.node := fun heq => fresh (heq ▸ hi)
    rw [crownedObjective?, crownedObjective?, h.get?_old hne hk, hk]
  have hnew : crownedObjective? p next.tree here.node
      = if m.outcome = .incumbent then some (p.objectiveValue (snap p m.values)) else none := by
    rw [crownedObjective?, h.get?_itself, Option.bind_some]
  rw [crownedObjectives, List.filterMap_append, hold, List.filterMap_cons, hnew]
  by_cases hmark : m.outcome = .incumbent
  · simp [hmark, crownedObjectives]
  · simp [hmark, crownedObjectives]

/-! ## Comparisons that stay true -/

/-- What does not beat an incumbent does not beat one that does. -/
theorem beats_eq_false_of_beats [Lawful α] {values : List α} {z : α}
    (nonneg : Number.le 0 tolerance = true) (better : beats p tolerance best z = true)
    (worse : beats p tolerance best x = false) :
    beats p tolerance (some ⟨values, z⟩) x = false := by
  cases best with
  | none => simp [beats] at worse
  | some old =>
    rw [beats] at better worse
    by_contra hbeats
    have himproves : p.sense.improves x z tolerance = true := by simpa [beats] using hbeats
    rw [Sense.improves_trans nonneg better himproves] at worse
    cases worse

/-- The incumbent that a judgement leaves is beaten by nothing that did not beat the one
before. -/
theorem Judged.beats_eq_false [Lawful α] (nonneg : Number.le 0 tolerance = true)
    (h : Judged p tolerance m best best') (worse : beats p tolerance best x = false) :
    beats p tolerance best' x = false := by
  cases h with
  | incumbent mark better => exact beats_eq_false_of_beats nonneg better worse
  | integral => exact worse
  | pruned => exact worse
  | other => exact worse

/-! ## The invariant -/

/-- The marked nodes improve on one another, the last one has the incumbent, and what was
turned down does not beat it. -/
structure Succeeds (p : Program α) (tolerance : α) (order : List Nat) (t : SearchTree α)
    (best : Option (Incumbent α)) : Prop where
  improving : (crownedObjectives p t order).Pairwise fun earlier later =>
    p.sense.improves later earlier tolerance = true
  last : best.map (·.objective) = (crownedObjectives p t order).getLast?
  integral : ∀ i n, t.get? i = some n → n.outcome = .integral →
    beats p tolerance best (p.objectiveValue (snap p n.values)) = false
  pruned : ∀ i n, t.get? i = some n → n.outcome = .pruned →
    ∃ bound, n.relaxation = some bound ∧ beats p tolerance best bound = false

theorem succeeds_initial (p : Program α) (tolerance : α) :
    Succeeds p tolerance [] (.initial : SearchTree α) none := by
  have hpending : ∀ i n, (.initial : SearchTree α).get? i = some n → n.outcome = .pending := by
    intro i n hn
    rw [(SearchTree.eq_of_get?_initial hn).2]
    rfl
  refine ⟨List.Pairwise.nil, rfl, fun i n hn hout => ?_, fun i n hn hout => ?_⟩
  · simp [hpending i n hn] at hout
  · simp [hpending i n hn] at hout

/-- A new incumbent beats every one before it. -/
theorem Succeeds.improves_of_beats [Lawful α] {t : SearchTree α}
    (nonneg : Number.le 0 tolerance = true) (h : Succeeds p tolerance order t best) {z : α}
    (better : beats p tolerance best z = true) :
    ∀ x ∈ crownedObjectives p t order, p.sense.improves z x tolerance = true := by
  intro x hx
  -- it beats the last one, and the last one beats the others
  obtain ⟨front, last, hsplit⟩ : ∃ front last, crownedObjectives p t order = front ++ [last] :=
    ⟨_, _, (List.dropLast_append_getLast (List.ne_nil_of_mem hx)).symm⟩
  have hlast := h.last
  have hpairs := h.improving
  rw [hsplit, List.getLast?_concat] at hlast
  obtain ⟨old, rfl, rfl⟩ := Option.map_eq_some_iff.mp hlast
  have hbeats : p.sense.improves z old.objective tolerance = true := better
  rw [hsplit, List.mem_append, List.mem_singleton] at hx
  rcases hx with hfront | heq
  · rw [hsplit] at hpairs
    have hold := (List.pairwise_append.mp hpairs).2.2 x hfront old.objective
      (List.mem_singleton_self _)
    exact Sense.improves_trans nonneg hold hbeats
  · rw [heq]
    exact hbeats

/-- **A turn keeps the succession**, whatever becomes of its node. -/
theorem Succeeds.turn [Lawful α] (nonneg : Number.le 0 tolerance = true)
    (h : Succeeds p tolerance order s.tree s.incumbent)
    (hturn : Turn p tolerance s next here n m more) (fresh : here.node ∉ order)
    (there : ∀ i ∈ order, ∃ k, s.tree.get? i = some k) :
    Succeeds p tolerance (order ++ [here.node]) next.tree next.incumbent := by
  have hr := hturn.replaces
  have hobjectives := crownedObjectives_concat (p := p) hr fresh there
  -- a node with a judgement is the one that was taken, or had it before
  have hcases : ∀ i k, next.tree.get? i = some k → k.outcome ≠ .pending →
      k = m ∨ s.tree.get? i = some k := by
    intro i k hk hout
    rcases hr.node_cases hk with ⟨-, hnew⟩ | ⟨-, heq⟩ | ⟨-, hold⟩
    · exact absurd (hturn.fresh k (List.mem_of_getElem? hnew)) hout
    · exact .inl heq
    · exact .inr hold
  have hj := hturn.judged
  constructor
  case improving =>
    rw [hobjectives, List.pairwise_append]
    by_cases hmark : m.outcome = .incumbent
    · rw [if_pos hmark]
      refine ⟨h.improving, List.pairwise_singleton _ _, fun x hx z hz => ?_⟩
      rw [List.mem_singleton] at hz
      rw [hz]
      exact h.improves_of_beats nonneg (hj.of_incumbent hmark).1 x hx
    · rw [if_neg hmark]
      exact ⟨h.improving, List.Pairwise.nil, fun x _ z hz => by cases hz⟩
  case last =>
    rw [hobjectives]
    by_cases hmark : m.outcome = .incumbent
    · rw [if_pos hmark, List.getLast?_concat, (hj.of_incumbent hmark).2]
      rfl
    · rw [if_neg hmark, List.append_nil, hj.eq_of_ne hmark]
      exact h.last
  case integral =>
    intro i k hk hout
    apply hj.beats_eq_false nonneg
    rcases hcases i k hk (by simp [hout]) with rfl | hold
    · exact hj.of_integral hout
    · exact h.integral i k hold hout
  case pruned =>
    intro i k hk hout
    have hbefore : ∃ bound, k.relaxation = some bound
        ∧ beats p tolerance s.incumbent bound = false := by
      rcases hcases i k hk (by simp [hout]) with rfl | hold
      · exact hj.of_pruned hout
      · exact h.pruned i k hold hout
    obtain ⟨bound, hbound, hworse⟩ := hbefore
    exact ⟨bound, hbound, hj.beats_eq_false nonneg hworse⟩

end Turn

/-! ## Runs -/

section Run

variable {p : Program α} {limits : Limits α} {oracle : Oracle α} {watch : Nat → Sighting}
  {s : State α} {k : Nat}

/-- What has been solved is in the tree, and what is on top of the stack is not among it. -/
theorem there_of_mem_solvedIn (hs : stateAfter? p limits oracle watch k = some s) :
    ∀ i ∈ solvedIn p limits oracle watch k, ∃ n, s.tree.get? i = some n := by
  intro i hi
  obtain ⟨n, hn, -⟩ := (mem_solvedIn_iff hs i).mp hi
  exact ⟨n, hn⟩

theorem not_mem_solvedIn_of_top (hs : stateAfter? p limits oracle watch k = some s)
    {here : Pending α} {rest : List (Pending α)} (hstack : s.stack = here :: rest) :
    here.node ∉ solvedIn p limits oracle watch k := by
  rw [mem_solvedIn_iff hs]
  rintro ⟨n, hn, hout⟩
  obtain ⟨n', hn', hpending, -, -⟩ := (reachable_of_stateAfter? hs).books.top hstack
  rw [hn, Option.some.injEq] at hn'
  exact hout (hn' ▸ hpending)

/-- **The succession holds in every state** of a run. -/
theorem succeeds_of_stateAfter? [Lawful α] (nonneg : Number.le 0 limits.tolerance = true)
    (hs : stateAfter? p limits oracle watch k = some s) :
    Succeeds p limits.tolerance (solvedIn p limits oracle watch k) s.tree s.incumbent := by
  induction k generalizing s with
  | zero =>
    obtain rfl : State.initial p = s := Option.some.inj hs
    exact succeeds_initial p limits.tolerance
  | succ k ih =>
    obtain ⟨before, here, rest, relaxation, hbefore, hsolved, hstack, hc⟩ := exists_concluded hs
    obtain ⟨n, m, more, hturn⟩ :=
      hc.exists_turn (reachable_of_stateAfter? hbefore).books hstack
    have hsucceeds := (ih hbefore).turn nonneg hturn (not_mem_solvedIn_of_top hbefore hstack)
      (there_of_mem_solvedIn hbefore)
    rw [solvedIn_succ, hsolved]
    exact hsucceeds

/-- **The state a run ends in** has a succession too, of all the nodes it explored. -/
theorem succeeds_of_finished [Lawful α] (nonneg : Number.le 0 limits.tolerance = true)
    (hs : stateAfter? p limits oracle watch k = some s) {last : State α}
    {status : Answer.Status}
    (hstep : step p limits oracle (watch s.explored) s = .finished last status) :
    Succeeds p limits.tolerance (solvedIn p limits oracle watch last.explored) last.tree
        last.incumbent
      ∧ (∀ i, i ∈ solvedIn p limits oracle watch last.explored
        ↔ ∃ n, last.tree.get? i = some n ∧ n.outcome ≠ .pending)
      ∧ (status = .unbounded → last.incumbent = none) := by
  have hsucceeds := succeeds_of_stateAfter? nonneg hs
  have hcount := explored_of_stateAfter? hs
  have hstepped := stepped p limits oracle (watch s.explored) s
  rw [hstep] at hstepped
  cases hstepped with
  | exhausted empty =>
    rw [hcount]
    refine ⟨hsucceeds, mem_solvedIn_iff hs, fun hstatus => ?_⟩
    split at hstatus <;> cases hstatus
  | halted here rest status top halts =>
    rw [hcount]
    refine ⟨hsucceeds, mem_solvedIn_iff hs, fun hstatus => ?_⟩
    rcases haltStatus?_some halts with rfl | rfl | rfl <;> cases hstatus
  | rootUnbounded here rest top goesOn answers root =>
    -- the last turn marks its node and is counted, so it is a turn like the others
    obtain ⟨n, m, hturn⟩ := Turn.marked limits.tolerance
      (reachable_of_stateAfter? hs).books top (.inr rfl)
    have hsolved : solved? p limits oracle watch k = some here := by
      rw [solved?_eq_some_iff hs, top]
      exact ⟨hcount ▸ goesOn, rfl⟩
    have horder : solvedIn p limits oracle watch (s.explored + 1)
        = solvedIn p limits oracle watch k ++ [here.node] := by
      rw [hcount, solvedIn_succ, hsolved]
      rfl
    have hlast := hsucceeds.turn nonneg hturn (not_mem_solvedIn_of_top hs top)
      (there_of_mem_solvedIn hs)
    have hmem : ∀ i, i ∈ solvedIn p limits oracle watch (s.explored + 1)
        ↔ (∃ n, s.tree.get? i = some n ∧ n.outcome ≠ .pending) ∨ i = here.node := by
      intro i
      rw [horder, List.mem_append, List.mem_singleton, mem_solvedIn_iff hs]
    refine ⟨horder ▸ hlast, fun i => ?_, fun _ => ?_⟩
    · exact (hmem i).trans (hturn.solved_iff i).symm
    · -- only the root ends a search so, and it is the first node to be solved
      obtain rfl := (reachable_of_stateAfter? hs).eq_initial_of_root top root
      rfl

/-- How the incumbents of a run succeed one another, as its answer and its tree show it. -/
structure Succession (p : Program α) (limits : Limits α) (oracle : Oracle α)
    (watch : Nat → Sighting) (answer : Answer α) (t : SearchTree α) : Prop where
  /-- The order of the nodes is that of the turns that solved them, each once. -/
  order : (solvedIn p limits oracle watch answer.nodes).Nodup
    ∧ ∀ i, i ∈ solvedIn p limits oracle watch answer.nodes
      ↔ ∃ n, t.get? i = some n ∧ n.outcome ≠ .pending
  /-- In this order every marked node beats the one before it, and all that came before. -/
  improving : (crownedObjectives p t (solvedIn p limits oracle watch answer.nodes)).Pairwise
    fun earlier later => p.sense.improves later earlier limits.tolerance = true
  /-- The last of them is the one that is returned. -/
  returned : answer.objective
    = (crownedObjectives p t (solvedIn p limits oracle watch answer.nodes)).getLast?
  /-- No other integral node beats what is returned. -/
  integral : ∀ i n, t.get? i = some n → n.outcome = .integral →
    ∃ best, answer.objective = some best
      ∧ p.sense.improves (p.objectiveValue (snap p n.values)) best limits.tolerance = false
  /-- No relaxation of a pruned node beats it. -/
  pruned : ∀ i n, t.get? i = some n → n.outcome = .pruned →
    ∃ best bound, answer.objective = some best ∧ n.relaxation = some bound
      ∧ p.sense.improves bound best limits.tolerance = false

/-- What does not beat the incumbent has one that it does not beat. -/
theorem exists_of_beats_eq_false {tolerance x : α} {best : Option (Incumbent α)}
    (h : beats p tolerance best x = false) :
    ∃ old, best = some old ∧ p.sense.improves x old.objective tolerance = false := by
  cases best with
  | none => simp [beats] at h
  | some old => exact ⟨old, rfl, h⟩

/-- **Incumbents only improve.** For every oracle, and wherever the search is stopped, the
points that were accepted beat one another by more than the tolerance in the order of their
turns, the last of them is returned, and nothing that was given up beats it. -/
theorem succession_of_answered [Lawful α] (p : Program α) (limits : Limits α)
    (oracle : Oracle α) (watch : Nat → Sighting) (steps : Nat)
    (nonneg : Number.le 0 limits.tolerance = true) (answer : Answer α)
    (answered : run p limits oracle watch steps = .answered answer) :
    ∃ t, answer.tree = some t ∧ Succession p limits oracle watch answer t := by
  obtain ⟨j, s, last, status, -, hs, hstep, rfl⟩ := last_turn_of_answered answered
  obtain ⟨hsucceeds, hsolved, hunbounded⟩ := succeeds_of_finished nonneg hs hstep
  -- an unbounded problem had no incumbent, so hiding it hides nothing
  have hobjective : (last.answer status).objective = last.incumbent.map (·.objective) := by
    by_cases hstatus : status = .unbounded
    · rw [hunbounded hstatus, hstatus]
      rfl
    · exact (last.values_answer hstatus).2
  refine ⟨last.tree, rfl, ⟨nodup_solvedIn p limits oracle watch _, hsolved⟩,
    hsucceeds.improving, hobjective.trans hsucceeds.last, ?_, ?_⟩
  · intro i n hn hout
    obtain ⟨best, hbest, hworse⟩ := exists_of_beats_eq_false (hsucceeds.integral i n hn hout)
    exact ⟨best.objective, by rw [hobjective, hbest]; rfl, hworse⟩
  · intro i n hn hout
    obtain ⟨bound, hbound, hbeats⟩ := hsucceeds.pruned i n hn hout
    obtain ⟨best, hbest, hworse⟩ := exists_of_beats_eq_false hbeats
    exact ⟨best.objective, bound, by rw [hobjective, hbest]; rfl, hbound, hworse⟩

/-- A run with two incumbents: node 2 is solved before node 1. Their objectives are 0 and 1,
in this order, and the second is returned. -/
theorem succession_of_answered_twoIncumbents :
    ∃ answer t, run twoIncumbents exactLimits (twoIncumbents.relax 0) (fun _ => ⟨false, .zero⟩) 4
        = .answered answer
      ∧ answer.tree = some t ∧ answer.objective = some (.fin 1)
      ∧ crownedObjectives twoIncumbents t (solvedIn twoIncumbents exactLimits
          (twoIncumbents.relax 0) (fun _ => ⟨false, .zero⟩) answer.nodes) = [.fin 0, .fin 1]
      ∧ Succession twoIncumbents exactLimits (twoIncumbents.relax 0) (fun _ => ⟨false, .zero⟩)
        answer t := by
  have hrun : ((run twoIncumbents exactLimits (twoIncumbents.relax 0)
      (fun _ => ⟨false, .zero⟩) 4).answer?.map fun answer => (answer.objective,
        answer.tree.map fun t => crownedObjectives twoIncumbents t (solvedIn twoIncumbents
          exactLimits (twoIncumbents.relax 0) (fun _ => ⟨false, .zero⟩) answer.nodes)))
      = some (some (.fin 1), some [.fin 0, .fin 1]) := by decide +kernel
  obtain ⟨answer, hanswer, hfacts⟩ := Option.map_eq_some_iff.mp hrun
  rw [Prod.mk.injEq] at hfacts
  have hrun := Run.eq_answered_of_answer? hanswer
  obtain ⟨t, ht, hsuccession⟩ := succession_of_answered twoIncumbents exactLimits
    (twoIncumbents.relax 0) _ 4 (by decide +kernel) answer hrun
  have horder := hfacts.2
  rw [ht, Option.map_some, Option.some.injEq] at horder
  exact ⟨answer, t, hrun, ht, hfacts.1, horder, hsuccession⟩

end Run

end Search

end Milp
