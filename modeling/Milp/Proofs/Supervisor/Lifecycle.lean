/-
The phases of a supervisor, over any number of calls.

A call is recorded in one of two shapes (`Record.idle`, `Record.working`), both of which end
in the phase that the result stands for. So the phase in which a supervisor rests after a
call and the result of that call tell the same story (`Phase.tells_ofResult`), and a session
is set to work in exactly one of the two shapes. `Conforms` is what one call keeps to.

A call leaves the solver and the options of its supervisor as they were. Whatever it was
called for before, the next call keeps to the same rules, and the phases of all calls
together follow `Phase.Next` (`serveAll_lifecycle`).
-/
import Milp.Proofs.Supervisor.Calls
import Mathlib.Data.List.Chain

set_option autoImplicit false

namespace Milp

variable {α : Type}

/-! ## Phases -/

namespace Phase

/-- Which phase may follow which. -/
inductive Next : Phase → Phase → Prop
  /-- A call begins where nothing is under way. -/
  | begin {p : Phase} (resting : p = .idle ∨ p.isTerminal = true) : Next p .building
  | work : Next .building .solving
  | finish {q : Phase} (terminal : q.isTerminal = true) : Next .solving q
  /-- Without a session at work there is nothing to complete. -/
  | giveUp {q : Phase} (terminal : q.isTerminal = true) (incomplete : q ≠ .completed) :
      Next .building q

/-- A phase says what a result says. -/
structure Tells (p : Phase) (result : Except (Fault α) (Outcome α)) : Prop where
  failed : p = .failed ↔ ∃ fault, result = .error fault
  timedOut : p = .timedOut ↔ ∃ o, result = .ok o ∧ o.status = .timedOut
  cancelled : p = .cancelled ↔ ∃ o, result = .ok o ∧ o.status = .interrupted
  completed : p = .completed ↔ ∃ o, result = .ok o ∧ o.status ≠ .timedOut ∧ o.status ≠ .interrupted

theorem isTerminal_ofResult (result : Except (Fault α) (Outcome α)) :
    (ofResult result).isTerminal = true := by
  cases result with
  | error fault => rfl
  | ok o =>
    rw [ofResult]
    cases o.status <;> rfl

theorem tells_ofResult (result : Except (Fault α) (Outcome α)) :
    (ofResult result).Tells result := by
  cases result with
  | error fault => constructor <;> simp [ofResult]
  | ok o =>
    cases hstatus : o.status <;> constructor <;> simp [ofResult, ofOutcome, hstatus]

end Phase

namespace Supervisor

/-! ## One call -/

/-- What a call keeps to, with its record and the supervisor it leaves. -/
structure Conforms (b : Backend α) (options : Options α) (call : Call α)
    (served : Record α × Supervisor α) : Prop where
  begins : served.1.phases.head? = some .building
  ends : served.1.phases.getLast? = some served.2.phase
  terminal : served.2.phase.isTerminal = true
  tells : served.2.phase.Tells served.1.result
  solving_iff : .solving ∈ served.1.phases ↔ ∃ session, call.SetsToWork b session
  /-- A session that is set to work is called once. -/
  once : (∃ session, call.SetsToWork b session) →
    served.1.calls = [options.limits call.budget]
  never : (¬ ∃ session, call.SetsToWork b session) → served.1.calls = []
  /-- Without time the caller's cancellation makes no difference. -/
  noTime : (∃ session, b.openSession call.model = .ok session) → call.budget = .zero →
    served.2.phase = .timedOut

section OneCall

variable {b : Backend α} {options : Options α} {call : Call α}

theorem Conforms.of_working {session : Session α} (works : call.SetsToWork b session)
    (s : Supervisor α) (result : Except (Fault α) (Outcome α)) :
    Conforms b options call
      (.working (options.limits call.budget) result, { s with phase := .ofResult result }) where
  begins := rfl
  ends := rfl
  terminal := Phase.isTerminal_ofResult result
  tells := Phase.tells_ofResult result
  solving_iff := iff_of_true (by simp [Record.working]) ⟨session, works⟩
  once _ := rfl
  never idle := absurd ⟨session, works⟩ idle
  noTime _ noTime := absurd noTime works.time

theorem Conforms.of_idle (idle : ¬ ∃ session, call.SetsToWork b session) (s : Supervisor α)
    {result : Except (Fault α) (Outcome α)}
    (noTime : (∃ session, b.openSession call.model = .ok session) → call.budget = .zero →
      Phase.ofResult result = .timedOut) :
    Conforms b options call (.idle result, { s with phase := .ofResult result }) where
  begins := rfl
  ends := rfl
  terminal := Phase.isTerminal_ofResult result
  tells := Phase.tells_ofResult result
  solving_iff := by
    refine iff_of_false (fun solving => ?_) idle
    rcases List.mem_pair.mp solving with h | h
    · cases h
    · have hterminal := Phase.isTerminal_ofResult result
      rw [← h] at hterminal
      cases hterminal
  once works := absurd works idle
  never _ := rfl
  noTime := noTime

end OneCall

variable [Number α]

/-- Every call keeps to the rules, whatever the supervisor was called for before. -/
theorem conforms_serve (s : Supervisor α) (call : Call α) :
    Conforms s.backend s.options call (s.serve call) := by
  rw [serve_eq]
  by_cases works : ∃ session, call.SetsToWork s.backend session
  · obtain ⟨session, works⟩ := works
    rw [record_of_setsToWork works]
    exact .of_working works s _
  · obtain ⟨result, hrecord, -⟩ := record_of_idle s.options works
    rw [hrecord]
    refine .of_idle works s fun ⟨session, opened⟩ noTime => ?_
    -- without time there is only one result
    have hresult := (hrecord.symm.trans (record_of_noTime opened noTime)).symm
    obtain rfl : .ok (unfinished s.backend call.model .timedOut call.budget) = result :=
      congrArg Record.result hresult
    rfl

theorem isChain_serve (s : Supervisor α) (resting : s.phase = .idle ∨ s.phase.isTerminal = true)
    (call : Call α) {later : List Phase}
    (h : ((s.serve call).2.phase :: later).IsChain Phase.Next) :
    (s.phase :: ((s.serve call).1.phases ++ later)).IsChain Phase.Next := by
  rw [serve_eq] at h ⊢
  by_cases works : ∃ session, call.SetsToWork s.backend session
  · obtain ⟨session, works⟩ := works
    rw [record_of_setsToWork works] at h ⊢
    exact .cons_cons (.begin resting) <| .cons_cons .work <|
      .cons_cons (.finish (Phase.isTerminal_ofResult _)) h
  · obtain ⟨result, hrecord, incomplete⟩ := record_of_idle s.options works
    rw [hrecord] at h ⊢
    exact .cons_cons (.begin resting) <|
      .cons_cons (.giveUp (Phase.isTerminal_ofResult _) incomplete) h

/-! ## Any number of calls -/

theorem forall₂_conforms_serveAll (s : Supervisor α) (calls : List (Call α)) :
    List.Forall₂ (Conforms s.backend s.options) calls (s.serveAll calls) := by
  induction calls generalizing s with
  | nil => exact .nil
  | cons call calls ih => exact .cons (conforms_serve s call) (ih (s.serve call).2)

theorem isChain_serveAll (s : Supervisor α)
    (resting : s.phase = .idle ∨ s.phase.isTerminal = true) (calls : List (Call α)) :
    (s.phase :: (s.serveAll calls).flatMap (·.1.phases)).IsChain Phase.Next := by
  induction calls generalizing s with
  | nil => exact .singleton _
  | cons call calls ih =>
    rw [serveAll, List.flatMap_cons]
    exact isChain_serve s resting call (ih _ (.inr (conforms_serve s call).terminal))

/-- **The life of a supervisor.** Over any number of calls, and in whatever order things
happen in each of them, the phases follow each other as they may. Each call begins with
building and ends in a terminal phase: failed exactly with a fault, timed out or cancelled
exactly with an outcome of that status, completed with any other outcome. A session is set
to work, once, exactly if the solver opened one, there is time and the caller has not yet
cancelled; with an open session and no time the call is timed out, cancelled or not. -/
theorem serveAll_lifecycle (b : Backend α) (options : Options α) (calls : List (Call α)) :
    List.Forall₂ (Conforms b options) calls ((new b options).serveAll calls)
      ∧ (Phase.idle :: ((new b options).serveAll calls).flatMap (·.1.phases)).IsChain Phase.Next :=
  ⟨forall₂_conforms_serveAll (new b options) calls,
    isChain_serveAll (new b options) (.inl rfl) calls⟩

end Supervisor

end Milp
