/-
What the caller learns of the search.

An answer comes with counts of the work that was done and with the record of the search. The
audit puts them into the outcome, with or without an assignment (`Audit.Passes.tells`), and
changing the status to that of an interruption leaves them there. So an answer that the
supervisor notices while nothing has interrupted the session always tells of its search.

An answer that is handed over within the grace does so only if it has values. One without
values is treated as if the session had not ended, and nothing is left of it: the outcome
counts no work and has no record, although the supervisor was given both
(`tells_of_noticed`, `fruitless_search_lost`).
-/
import Milp.Proofs.Supervisor.Reports

set_option autoImplicit false

namespace Milp

variable {α : Type}

/-- An outcome tells of the search that an answer tells of: with its counts of the work and its
record. -/
structure Outcome.Tells (o : Outcome α) (answer : Answer α) : Prop where
  iterations : o.statistics.iterations = answer.iterations
  nodes : o.statistics.nodes = answer.nodes
  tree : o.tree = answer.tree

/-- An answer tells of no search. -/
structure Answer.IsSilent (answer : Answer α) : Prop where
  iterations : answer.iterations = 0
  nodes : answer.nodes = 0
  tree : answer.tree = none

variable [Number α]

/-- **What the audit passes on**, however an answer passes it. -/
theorem Audit.Passes.tells {tolerance : α} {m : Model α} {backend : String} {answer : Answer α}
    {o : Outcome α} (h : Audit.Passes tolerance m backend answer o) : o.Tells answer := by
  cases h with
  | unsolved _ => exact ⟨rfl, rfl, rfl⟩
  | valueless _ _ => exact ⟨rfl, rfl, rfl⟩
  | solved _ _ _ _ _ _ => exact ⟨rfl, rfl, rfl⟩

namespace Supervisor

/-- An outcome of which only the interruption is known tells of answers that tell of
nothing. -/
theorem tells_unfinished_iff {b : Backend α} {m : Model α} {status : Outcome.Status}
    {budget : Duration} {answer : Answer α} :
    (unfinished b m status budget).Tells answer ↔ answer.IsSilent := by
  constructor
  · rintro ⟨iterations, nodes, tree⟩
    exact ⟨iterations.symm, nodes.symm, tree.symm⟩
  · rintro ⟨iterations, nodes, tree⟩
    exact ⟨iterations.symm, nodes.symm, tree.symm⟩

section Settling

variable {b : Backend α} {tolerance : α} {m : Model α} {answer : Answer α} {o : Outcome α}

theorem tells_of_settleEnd (h : (settleEnd b tolerance m (.returned answer)).2 = .ok o) :
    o.Tells answer := by
  obtain ⟨answer', hsame, passes⟩ := settleEnd_snd_eq_ok_iff.mp h
  obtain rfl : answer = answer' := by injection hsame
  exact (Audit.outcome_eq_ok_iff.mp passes).tells

theorem tells_of_settleStop {budget : Duration} {why : Interruption}
    (values : answer.values.isSome = true)
    (h : (settleStop b tolerance m budget why (some (.returned answer))).2 = .ok o) :
    o.Tells answer := by
  rcases settleStop_snd_eq_ok_iff.mp h with ⟨nothing, -⟩ | ⟨answer', passed, hsame, -, passes, rfl⟩
  · rw [handedOver?_eq_some_iff.mpr ⟨rfl, values⟩] at nothing
    cases nothing
  · obtain rfl : answer = answer' := by injection hsame with hsame; injection hsame
    obtain ⟨iterations, nodes, tree⟩ := (Audit.outcome_eq_ok_iff.mp passes).tells
    exact ⟨iterations, nodes, tree⟩

/-- Without values nothing counts as handed over. -/
theorem settleStop_of_values_eq_none {budget : Duration} {why : Interruption}
    (values : answer.values = none) :
    settleStop b tolerance m budget why (some (.returned answer))
      = (why.phase, .ok (unfinished b m why.status budget)) := by
  have nothing : handedOver? (some (.returned answer)) = none := by
    rw [handedOver?, values]
    rfl
  rw [settleStop, nothing]

end Settling

/-- **Which searches the caller is told of.** Suppose the supervisor notices an answer, and
the call has an outcome. If nothing had interrupted the session, the outcome tells of the
search that the answer tells of. If the session had been told to stop, it does so exactly if
the answer has values, or has nothing to tell. Of an answer without values nothing at all is
left. -/
theorem tells_of_noticed (s : Supervisor α) (call : Call α) (session : Session α)
    (works : call.SetsToWork s.backend session) (answer : Answer α)
    (noticed : (call.race s.options session).noticed? = some (.returned answer)) (o : Outcome α)
    (result : (s.serve call).1.result = .ok o) :
    ∃ before rest,
      (call.courseOf s.options session).events = before ++ .ended (.returned answer) :: rest
      ∧ ((Standing.after before = .running ∧ o.Tells answer)
        ∨ ∃ why, Standing.after before = .stopping why
            ∧ (o.Tells answer ↔ answer.values.isSome = true ∨ answer.IsSilent)
            ∧ (answer.values = none →
                o = unfinished s.backend call.model why.status call.budget)) := by
  obtain ⟨before, rest, hsplit, hcases⟩ := (call.courseOf s.options session).noticed noticed
  refine ⟨before, rest, hsplit, ?_⟩
  rw [serve_eq, record_of_setsToWork works, Call.race] at result
  -- the session has ended of itself or within the grace
  rcases hcases with ⟨hrunning, hrace⟩ | ⟨why, hstopping, hrace⟩
  · rw [hrace] at result
    exact .inl ⟨hrunning, tells_of_settleEnd result⟩
  · rw [hrace] at result
    refine .inr ⟨why, hstopping, ?_⟩
    by_cases values : answer.values = none
    · have hbare : o = unfinished s.backend call.model why.status call.budget := by
        rw [Record.working, settle, settleStop_of_values_eq_none values] at result
        exact (Except.ok.inj result).symm
      rw [hbare, tells_unfinished_iff, values]
      exact ⟨⟨.inr, fun h => h.resolve_left Bool.false_ne_true⟩, fun _ => rfl⟩
    · have hsome : answer.values.isSome = true := Option.isSome_iff_ne_none.mpr values
      exact ⟨iff_of_true (tells_of_settleStop hsome result) (.inl hsome),
        fun hnone => absurd hnone values⟩

/-- A search of five nodes that has found nothing. -/
def fruitless : Answer ExtRat := ⟨.interrupted, none, none, 3, 5, "", some .initial⟩

/-- Before the deadline the caller is told of five nodes. -/
theorem tells_of_noticed_fruitless :
    ∃ o, ((scripted (.returned fruitless)).serve (earlyCall (.returned fruitless))).1.result = .ok o
      ∧ o.statistics.nodes = 5 ∧ o.tree = some .initial := by
  obtain ⟨before, rest, hsplit, hcases⟩ := tells_of_noticed (scripted (.returned fruitless))
    (earlyCall (.returned fruitless)) _ ⟨rfl, by decide, rfl⟩ fruitless rfl _ rfl
  rcases hcases with ⟨-, tells⟩ | ⟨why, -, -, hbare⟩
  · exact ⟨_, rfl, tells.nodes, tells.tree⟩
  · have hnodes := congrArg (·.statistics.nodes) (hbare rfl)
    cases hnodes

/-- After the deadline of none, with the same answer. -/
theorem fruitless_search_lost :
    ∃ session o,
      (lateCall (.returned fruitless)).SetsToWork (scripted (.returned fruitless)).backend session
      ∧ ((lateCall (.returned fruitless)).race loose session).noticed? = some (.returned fruitless)
      ∧ ((scripted (.returned fruitless)).serve (lateCall (.returned fruitless))).1.result = .ok o
      ∧ ¬ o.Tells fruitless ∧ o.statistics.nodes = 0 ∧ o.tree = none :=
  ⟨_, _, ⟨rfl, by decide, rfl⟩, rfl, rfl, fun h => (by decide : 0 ≠ 5) h.nodes, rfl, rfl⟩

end Supervisor

end Milp
