/-
What the caller is told about a timeout and about a session that failed.

An outcome that timed out can be turned into a fault that names the budget, for a caller who
wants to try again with a larger one. The budget is put into the outcome by the paths on
which the supervisor itself notices that the time is up. A session has a clock of its own,
with the same limit; when it ends by itself and says that its time is up, the outcome is
the audit's and knows no budget, so the fault names none
(`ensureCompleted_of_timedOut`, `ensureCompleted_hurried`).

A session may also fail: with a fault, or by a crash, be it a panic or a task that was
aborted. The supervisor reports a failure that it notices while nothing has interrupted the
session. If the session had been told to stop, it only looks for values, and of a failure
nothing is left in the outcome (`failure_of_noticed`, `failure_dropped`).
-/
import Milp.Proofs.Supervisor.Assignments

set_option autoImplicit false

namespace Milp

variable {α : Type}

/-! ## Timeouts -/

/-- The session ends by itself before anything else is noticed, and says that its time is
up. -/
def Call.RunsOut (call : Call α) (s : Supervisor α) : Prop :=
  ∃ session answer, call.SetsToWork s.backend session
    ∧ call.race s.options session = .ended (.returned answer) ∧ answer.status = .timeLimit

theorem Outcome.ensureCompleted_of_status {o : Outcome α} (status : o.status = .timedOut) :
    o.ensureCompleted = .error (.timedOut (o.budget.getD .zero)) := by
  rw [ensureCompleted, status]
  rfl

namespace Supervisor

/-- A session that has been told to stop does not run out of time by itself. -/
theorem not_runsOut_of_interrupted {s : Supervisor α} {call : Call α} {session : Session α}
    (works : call.SetsToWork s.backend session) {why : Interruption}
    {within : Option (SessionEnd α)}
    (race : call.race s.options session = .interrupted why within) : ¬ call.RunsOut s := by
  rintro ⟨session', answer, works', race', -⟩
  rw [works'.unique works, race] at race'
  cases race'

variable [Number α]

/-- **Which budget a timeout names.** If the session ran out of time by itself, the fault
names no time at all, although there was some. In every other case it names the budget of
the call. -/
theorem ensureCompleted_of_timedOut (s : Supervisor α) (call : Call α) (o : Outcome α)
    (result : (s.serve call).1.result = .ok o) (status : o.status = .timedOut) :
    (call.RunsOut s →
        call.budget ≠ .zero ∧ o.ensureCompleted = .error (.timedOut .zero))
      ∧ (¬ call.RunsOut s → o.ensureCompleted = .error (.timedOut call.budget)) := by
  rw [Outcome.ensureCompleted_of_status status]
  cases result_eq_ok_iff.mp result with
  | noTime session opened noTime =>
    exact ⟨fun ⟨_, _, works, _, _⟩ => absurd noTime works.time, fun _ => rfl⟩
  | cancelled session opened time cancelled => cases status
  | answered session works answer race _ passes =>
    have hpasses := Audit.outcome_eq_ok_iff.mp passes
    have hlimit : answer.status = .timeLimit :=
      Audit.statusOf_injective (hpasses.status.symm.trans status)
    rw [hpasses.budget]
    exact ⟨fun _ => ⟨works.time, rfl⟩, fun h => absurd ⟨session, answer, works, race, hlimit⟩ h⟩
  | emptyHanded session works why within race nothing =>
    exact ⟨fun h => absurd h (not_runsOut_of_interrupted works race), fun _ => rfl⟩
  | handedOver session works why answer race values passed passes =>
    exact ⟨fun h => absurd h (not_runsOut_of_interrupted works race), fun _ => rfl⟩

/-- A session that is told to stop and then fails. -/
def licenceExpired : SessionEnd ExtRat := .failed (.solverFailed "scripted" "license expired")

/-- Where the supervisor's own clock runs out, after five nanoseconds, the fault says so. -/
theorem ensureCompleted_of_timedOut_lateCall :
    ∃ o, ((scripted licenceExpired).serve (lateCall licenceExpired)).1.result = .ok o
      ∧ o.status = .timedOut ∧ o.ensureCompleted = .error (.timedOut ⟨5⟩) := by
  have interrupted : ¬ (lateCall licenceExpired).RunsOut (scripted licenceExpired) :=
    not_runsOut_of_interrupted ⟨rfl, by decide, rfl⟩ rfl
  exact ⟨_, rfl, rfl, (ensureCompleted_of_timedOut _ _ _ rfl rfl).2 interrupted⟩

/-- A call with one nanosecond, in which the session of branch and bound ends by itself. -/
def hurried : Call ExtRat where
  model := twice
  budget := ⟨1⟩
  cancelled := false
  course session limits := ⟨[.ended (session limits none).ending], _, rfl⟩

/-- The clock of the search runs out before the supervisor's does. The outcome has timed
out, and its fault names zero and not the nanosecond. -/
theorem ensureCompleted_hurried :
    ∃ o, ((new .branchAndBound loose).serve hurried).1.result = .ok o
      ∧ o.status = .timedOut ∧ o.ensureCompleted = .error (.timedOut .zero)
      ∧ hurried.budget ≠ .zero :=
  ⟨_, rfl, rfl, rfl, by decide⟩

end Supervisor

/-! ## Failures -/

/-- The fault by which the failure of a session is reported; none for an answer. -/
def SessionEnd.fault? (name : String) : SessionEnd α → Option (Fault α)
  | .returned _ => none
  | .failed fault => some fault
  | .crashed crash => some (.solverFailed name crash.detail)

namespace Supervisor

variable [Number α]

theorem settleEnd_of_fault? {b : Backend α} {tolerance : α} {m : Model α} {how : SessionEnd α}
    {fault : Fault α} (fails : how.fault? b.name = some fault) :
    settleEnd b tolerance m how = (.failed, .error fault) := by
  cases how with
  | returned answer => cases fails
  | failed fault' =>
    obtain rfl : fault' = fault := Option.some.inj fails
    rfl
  | crashed crash =>
    obtain rfl : .solverFailed b.name crash.detail = fault := Option.some.inj fails
    rfl

/-- A failure within the grace is treated like a session that did not end. -/
theorem settleStop_of_fault? {b : Backend α} {tolerance : α} {m : Model α} {budget : Duration}
    {why : Interruption} {how : SessionEnd α} {fault : Fault α}
    (fails : how.fault? b.name = some fault) :
    settleStop b tolerance m budget why (some how)
      = (why.phase, .ok (unfinished b m why.status budget)) := by
  cases how with
  | returned answer => cases fails
  | failed fault' => rfl
  | crashed crash => rfl

/-- **Which failures are reported.** The supervisor notices a failing end of its session
either while nothing has interrupted the session, and then it fails with the fault of that
end, or after it told the session to stop, and then the outcome is that of the interruption,
without a trace of the failure. -/
theorem failure_of_noticed (s : Supervisor α) (call : Call α) (session : Session α)
    (works : call.SetsToWork s.backend session) (how : SessionEnd α)
    (noticed : (call.race s.options session).noticed? = some how) (fault : Fault α)
    (fails : how.fault? s.backend.name = some fault) :
    ∃ before rest, (call.courseOf s.options session).events = before ++ .ended how :: rest
      ∧ ((Standing.after before = .running
            ∧ (s.serve call).1.result = .error fault ∧ (s.serve call).2.phase = .failed)
        ∨ ∃ why, Standing.after before = .stopping why
            ∧ (s.serve call).1.result
                = .ok (unfinished s.backend call.model why.status call.budget)
            ∧ (s.serve call).2.phase = why.phase) := by
  obtain ⟨before, rest, hsplit, hcases⟩ := (call.courseOf s.options session).noticed noticed
  refine ⟨before, rest, hsplit, ?_⟩
  rw [serve_eq, record_of_setsToWork works, Call.race]
  rcases hcases with ⟨hrunning, hrace⟩ | ⟨why, hstopping, hrace⟩
  · rw [hrace, settle, settleEnd_of_fault? fails]
    exact .inl ⟨hrunning, rfl, rfl⟩
  · rw [hrace, settle, settleStop_of_fault? fails]
    exact .inr ⟨why, hstopping, rfl, why.ofOutcome_status⟩

/-- A session that crashes. -/
def outOfMemory : SessionEnd ExtRat := .crashed (.message "out of memory")

/-- The session ends before the deadline passes. -/
def earlyCall (how : SessionEnd ExtRat) : Call ExtRat :=
  { lateCall how with course := fun _ _ => ⟨[.ended how, .deadline], _, rfl⟩ }

/-- A crash before the deadline is reported, with the name of the solver. -/
theorem failure_of_noticed_earlyCall :
    ((scripted outOfMemory).serve (earlyCall outOfMemory)).1.result
        = .error (.solverFailed "scripted" "session panicked: out of memory")
      ∧ ((scripted outOfMemory).serve (earlyCall outOfMemory)).2.phase = .failed := by
  obtain ⟨before, rest, hsplit, ⟨-, hresult, hphase⟩ | ⟨why, -, hresult, -⟩⟩ :=
    failure_of_noticed (scripted outOfMemory) (earlyCall outOfMemory) _ ⟨rfl, by decide, rfl⟩
      outOfMemory rfl _ rfl
  · exact ⟨hresult, hphase⟩
  · cases hresult

/-- The session fails within the grace, the supervisor notices its fault, and still the
result is an outcome, with the status of a timeout. -/
theorem failure_dropped :
    ∃ session o, (lateCall licenceExpired).SetsToWork (scripted licenceExpired).backend session
      ∧ ((lateCall licenceExpired).race loose session).noticed? = some licenceExpired
      ∧ ((scripted licenceExpired).serve (lateCall licenceExpired)).1.result = .ok o
      ∧ o.status = .timedOut
      ∧ ((scripted licenceExpired).serve (lateCall licenceExpired)).2.phase = .timedOut :=
  ⟨_, _, ⟨rfl, by decide, rfl⟩, rfl, rfl, rfl, rfl⟩

end Supervisor

end Milp
