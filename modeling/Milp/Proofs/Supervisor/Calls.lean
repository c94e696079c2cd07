/-
What a call of a supervisor can lead to.

`solve` decides in several functions how a solve goes on. Proofs about calls do not open
them. They split at `SetsToWork`: a call that sets no session to work ends at once, and one
that does passes on how its race was settled (`record_of_idle`, `record_of_setsToWork`).
Either way the phase in which it ends is the one that its result stands for
(`settle_fst`), and a result that is no fault came about in one of five ways (`Yields`).

A call comes with a course of events for every session and all limits that it may be set to
work with. So what is proved of every call is proved for every solver, however it conducts
itself, and for every order in which things happen.
-/
import Milp.Proofs.Supervisor.Courses

set_option autoImplicit false

namespace Milp

variable {α : Type}

/-! ## Calls -/

/-- One call of a supervisor: what it is asked to do, whether the caller had cancelled by
the time a session was open, and what it noticed from then on. -/
structure Call (α : Type) where
  model : Model α
  budget : Duration
  cancelled : Bool
  course : Session α → Limits α → Course α

/-- A call sets a session to work if the solver opens one, there is time for it, and the
caller has not cancelled. -/
structure Call.SetsToWork (call : Call α) (b : Backend α) (session : Session α) : Prop where
  opened : b.openSession call.model = .ok session
  time : call.budget ≠ .zero
  wanted : call.cancelled = false

/-- **Why a call sets no session to work**: the solver refuses the model, there is no time, or
the caller has cancelled. -/
theorem Call.idle_cases {call : Call α} {b : Backend α}
    (idle : ¬ ∃ session, call.SetsToWork b session) :
    (∃ fault, b.openSession call.model = .error fault)
      ∨ (∃ session, b.openSession call.model = .ok session ∧ call.budget = .zero)
      ∨ ∃ session, b.openSession call.model = .ok session ∧ call.budget ≠ .zero
          ∧ call.cancelled = true := by
  cases opened : b.openSession call.model with
  | error fault => exact .inl ⟨fault, rfl⟩
  | ok session =>
    by_cases time : call.budget = .zero
    · exact .inr (.inl ⟨session, rfl, time⟩)
    · refine .inr (.inr ⟨session, rfl, time, ?_⟩)
      by_contra wanted
      exact idle ⟨session, opened, time, Bool.eq_false_iff.mpr wanted⟩

/-- A solver opens at most one session for a call. -/
theorem Call.SetsToWork.unique {call : Call α} {b : Backend α} {session session' : Session α}
    (h : call.SetsToWork b session) (h' : call.SetsToWork b session') : session = session' :=
  Except.ok.inj (h.opened.symm.trans h'.opened)

/-- What is noticed, if a session is set to work. -/
def Call.courseOf (call : Call α) (options : Options α) (session : Session α) : Course α :=
  call.course session (options.limits call.budget)

/-- How the race goes, if a session is set to work. -/
def Call.race (call : Call α) (options : Options α) (session : Session α) : Race α :=
  (call.courseOf options session).race

/-! ## Records -/

/-- The phase that a result stands for. -/
def Phase.ofResult : Except (Fault α) (Outcome α) → Phase
  | .ok o => .ofOutcome o.status
  | .error _ => .failed

theorem Interruption.status_eq (why : Interruption) :
    why.status = .timedOut ∨ why.status = .interrupted := by
  cases why
  · exact .inl rfl
  · exact .inr rfl

theorem Interruption.ofOutcome_status (why : Interruption) :
    Phase.ofOutcome why.status = why.phase := by
  cases why <;> rfl

namespace Supervisor

/-- The record of a call that sets no session to work. -/
def Record.idle (result : Except (Fault α) (Outcome α)) : Record α :=
  ⟨[.building, .ofResult result], [], result⟩

/-- The record of a call that sets a session to work. -/
def Record.working (limits : Limits α) (result : Except (Fault α) (Outcome α)) : Record α :=
  ⟨[.building, .solving, .ofResult result], [limits], result⟩

/-- Only an answer with values counts as handed over. -/
theorem handedOver?_eq_some_iff {within : Option (SessionEnd α)} {answer : Answer α} :
    handedOver? within = some answer
      ↔ within = some (.returned answer) ∧ answer.values.isSome = true := by
  constructor
  · intro h
    unfold handedOver? at h
    split at h
    · split at h
      · obtain rfl := Option.some.inj h
        exact ⟨rfl, ‹_›⟩
      · cases h
    · cases h
  · rintro ⟨rfl, values⟩
    exact if_pos values

variable [Number α]

/-- The record of a call. -/
def record (b : Backend α) (options : Options α) (call : Call α) : Record α :=
  solve b options call.model call.budget call.cancelled fun session limits =>
    (call.course session limits).race

/-- Answer a call. -/
def serve (s : Supervisor α) (call : Call α) : Record α × Supervisor α :=
  s.run call.model call.budget call.cancelled fun session limits =>
    (call.course session limits).race

/-- Answer one call after another; with each record comes the supervisor it leaves. -/
def serveAll (s : Supervisor α) : List (Call α) → List (Record α × Supervisor α)
  | [] => []
  | call :: calls => s.serve call :: (s.serve call).2.serveAll calls

theorem serve_eq (s : Supervisor α) (call : Call α) :
    s.serve call = (record s.backend s.options call,
      { s with phase := (record s.backend s.options call).lastPhase }) :=
  rfl

/-! ## How a race is settled -/

theorem settleEnd_fst (b : Backend α) (tolerance : α) (m : Model α) (how : SessionEnd α) :
    (settleEnd b tolerance m how).1 = .ofResult (settleEnd b tolerance m how).2 := by
  cases how with
  | returned answer =>
    rw [settleEnd]
    cases Audit.outcome tolerance m b.name answer <;> rfl
  | failed fault => rfl
  | crashed crash => rfl

theorem settleStop_fst (b : Backend α) (tolerance : α) (m : Model α) (budget : Duration)
    (why : Interruption) (within : Option (SessionEnd α)) :
    (settleStop b tolerance m budget why within).1
      = .ofResult (settleStop b tolerance m budget why within).2 := by
  unfold settleStop
  split
  · exact why.ofOutcome_status.symm
  · split
    · exact why.ofOutcome_status.symm
    · rfl

/-- A session that ended by itself leads to an outcome exactly if it returned an answer that
has one. -/
theorem settleEnd_snd_eq_ok_iff {b : Backend α} {tolerance : α} {m : Model α}
    {how : SessionEnd α} {o : Outcome α} :
    (settleEnd b tolerance m how).2 = .ok o
      ↔ ∃ answer, how = .returned answer ∧ Audit.outcome tolerance m b.name answer = .ok o := by
  constructor
  · intro h
    cases how with
    | failed fault => cases h
    | crashed crash => cases h
    | returned answer =>
      refine ⟨answer, rfl, ?_⟩
      cases passes : Audit.outcome tolerance m b.name answer with
      | error fault =>
        rw [settleEnd, passes] at h
        cases h
      | ok passed =>
        rw [settleEnd, passes] at h
        exact h
  · rintro ⟨answer, rfl, passes⟩
    rw [settleEnd, passes]

/-- A session that was told to stop leads to an outcome if it handed nothing over, or if
what it handed over has one. -/
theorem settleStop_snd_eq_ok_iff {b : Backend α} {tolerance : α} {m : Model α}
    {budget : Duration} {why : Interruption} {within : Option (SessionEnd α)} {o : Outcome α} :
    (settleStop b tolerance m budget why within).2 = .ok o
      ↔ (handedOver? within = none ∧ o = unfinished b m why.status budget)
        ∨ ∃ answer passed, within = some (.returned answer) ∧ answer.values.isSome = true
            ∧ Audit.outcome tolerance m b.name answer = .ok passed
            ∧ o = { passed with status := why.status, budget := some budget } := by
  constructor
  · intro h
    cases hover : handedOver? within with
    | none =>
      simp only [settleStop, hover, Except.ok.injEq] at h
      exact .inl ⟨rfl, h.symm⟩
    | some answer =>
      obtain ⟨hwithin, values⟩ := handedOver?_eq_some_iff.mp hover
      cases passes : Audit.outcome tolerance m b.name answer with
      | error fault =>
        simp only [settleStop, hover, passes] at h
        cases h
      | ok passed =>
        simp only [settleStop, hover, passes, Except.ok.injEq] at h
        exact .inr ⟨answer, passed, hwithin, values, passes, h.symm⟩
  · rintro (⟨nothing, rfl⟩ | ⟨answer, passed, rfl, values, passes, rfl⟩)
    · simp only [settleStop, nothing]
    · simp only [settleStop, handedOver?_eq_some_iff.mpr ⟨rfl, values⟩, passes]

/-- However a race is settled, the phase is the one that the result stands for. -/
theorem settle_fst (b : Backend α) (tolerance : α) (m : Model α) (budget : Duration)
    (race : Race α) :
    (settle b tolerance m budget race).1 = .ofResult (settle b tolerance m budget race).2 := by
  cases race with
  | ended how => exact settleEnd_fst b tolerance m how
  | interrupted why within => exact settleStop_fst b tolerance m budget why within

/-! ## What the record of a call is -/

section Records

variable {b : Backend α} {options : Options α} {call : Call α}

theorem record_of_setsToWork {session : Session α} (works : call.SetsToWork b session) :
    record b options call = .working (options.limits call.budget)
      (settle b options.tolerance call.model call.budget (call.race options session)).2 := by
  rw [Record.working, ← settle_fst, record, solve, works.opened]
  simp only [if_neg works.time, works.wanted]
  rfl

theorem record_of_refused {fault : Fault α} (refused : b.openSession call.model = .error fault) :
    record b options call = .idle (.error fault) := by
  rw [record, solve, refused]
  rfl

theorem record_of_noTime {session : Session α} (opened : b.openSession call.model = .ok session)
    (noTime : call.budget = .zero) :
    record b options call = .idle (.ok (unfinished b call.model .timedOut call.budget)) := by
  rw [record, solve, opened]
  exact if_pos noTime

theorem record_of_cancelled {session : Session α}
    (opened : b.openSession call.model = .ok session) (time : call.budget ≠ .zero)
    (cancelled : call.cancelled = true) :
    record b options call = .idle (.ok (unfinished b call.model .interrupted call.budget)) := by
  rw [record, solve, opened]
  simp only [if_neg time, if_pos cancelled]
  rfl

/-- A call that sets no session to work ends at once, and never as a completed one. -/
theorem record_of_idle (options : Options α) (idle : ¬ ∃ session, call.SetsToWork b session) :
    ∃ result, record b options call = .idle result ∧ Phase.ofResult result ≠ .completed := by
  rcases Call.idle_cases idle with ⟨fault, refused⟩ | ⟨session, opened, noTime⟩ |
    ⟨session, opened, time, cancelled⟩
  · exact ⟨_, record_of_refused refused, nofun⟩
  · exact ⟨_, record_of_noTime opened noTime, nofun⟩
  · exact ⟨_, record_of_cancelled opened time cancelled, nofun⟩

end Records

/-! ## Outcomes -/

/-- **How a call can have an outcome.** -/
inductive Yields (b : Backend α) (options : Options α) (call : Call α) : Outcome α → Prop
  /-- There was no time at all. -/
  | noTime (session : Session α) (opened : b.openSession call.model = .ok session)
      (noTime : call.budget = .zero) :
      Yields b options call (unfinished b call.model .timedOut call.budget)
  /-- The caller cancelled before the session was set to work. -/
  | cancelled (session : Session α) (opened : b.openSession call.model = .ok session)
      (time : call.budget ≠ .zero) (cancelled : call.cancelled = true) :
      Yields b options call (unfinished b call.model .interrupted call.budget)
  /-- The session ended by itself with an answer that passes the audit. -/
  | answered (session : Session α) (works : call.SetsToWork b session) (answer : Answer α)
      (race : call.race options session = .ended (.returned answer)) (o : Outcome α)
      (passes : Audit.outcome options.tolerance call.model b.name answer = .ok o) :
      Yields b options call o
  /-- The session was told to stop and handed nothing over. -/
  | emptyHanded (session : Session α) (works : call.SetsToWork b session) (why : Interruption)
      (within : Option (SessionEnd α)) (race : call.race options session = .interrupted why within)
      (nothing : handedOver? within = none) :
      Yields b options call (unfinished b call.model why.status call.budget)
  /-- The session was told to stop and handed over values that pass the audit. -/
  | handedOver (session : Session α) (works : call.SetsToWork b session) (why : Interruption)
      (answer : Answer α)
      (race : call.race options session = .interrupted why (some (.returned answer)))
      (values : answer.values.isSome = true) (o : Outcome α)
      (passes : Audit.outcome options.tolerance call.model b.name answer = .ok o) :
      Yields b options call { o with status := why.status, budget := some call.budget }

theorem yields_of_result {b : Backend α} {options : Options α} {call : Call α} {o : Outcome α}
    (h : (record b options call).result = .ok o) : Yields b options call o := by
  by_cases works : ∃ session, call.SetsToWork b session
  · obtain ⟨session, works⟩ := works
    rw [record_of_setsToWork works, Record.working] at h
    cases hrace : call.race options session with
    | ended how =>
      rw [hrace] at h
      obtain ⟨answer, rfl, passes⟩ := settleEnd_snd_eq_ok_iff.mp h
      exact .answered session works answer hrace o passes
    | interrupted why within =>
      rw [hrace] at h
      rcases settleStop_snd_eq_ok_iff.mp h with ⟨nothing, rfl⟩ |
        ⟨answer, passed, rfl, values, passes, rfl⟩
      · exact .emptyHanded session works why within hrace nothing
      · exact .handedOver session works why answer hrace values passed passes
  · rcases Call.idle_cases works with ⟨fault, refused⟩ | ⟨session, opened, noTime⟩ |
      ⟨session, opened, time, cancelled⟩
    · rw [record_of_refused refused] at h
      cases h
    · rw [record_of_noTime opened noTime] at h
      cases h
      exact .noTime session opened noTime
    · rw [record_of_cancelled opened time cancelled] at h
      cases h
      exact .cancelled session opened time cancelled

/-- Each of the five ways is one in which a call does have an outcome. -/
theorem result_of_yields {b : Backend α} {options : Options α} {call : Call α} {o : Outcome α}
    (h : Yields b options call o) : (record b options call).result = .ok o := by
  cases h with
  | noTime session opened noTime => rw [record_of_noTime opened noTime, Record.idle]
  | cancelled session opened time cancelled =>
    rw [record_of_cancelled opened time cancelled, Record.idle]
  | answered session works answer race _ passes =>
    rw [record_of_setsToWork works, race]
    exact settleEnd_snd_eq_ok_iff.mpr ⟨answer, rfl, passes⟩
  | emptyHanded session works why within race nothing =>
    rw [record_of_setsToWork works, race]
    exact settleStop_snd_eq_ok_iff.mpr (.inl ⟨nothing, rfl⟩)
  | handedOver session works why answer race values passed passes =>
    rw [record_of_setsToWork works, race]
    exact settleStop_snd_eq_ok_iff.mpr (.inr ⟨answer, passed, rfl, values, passes, rfl⟩)

theorem result_eq_ok_iff {b : Backend α} {options : Options α} {call : Call α} {o : Outcome α} :
    (record b options call).result = .ok o ↔ Yields b options call o :=
  ⟨yields_of_result, result_of_yields⟩

end Supervisor

/-! ## A solver that has one thing to say -/

/-- A solver whose sessions end in one way when they are told to stop, whatever the model. -/
def Backend.scripted (how : SessionEnd α) : Backend α :=
  ⟨"scripted", .mixedInteger, fun _ => .ok fun _ _ => ⟨.onceStopped, how⟩⟩

end Milp
