/-
What the judgement on a request says about solving it.

`validate` and `solve` look at the same things in the same order, each with code of its
own: the options, whether there is a model, the model itself, the solver, and whether the
solver can take the model. `AgreesWith` is what a client may conclude from the judgement. A
call that is refused would be refused in the other way as well. A fault that is found is
the one that solving fails with. And where none is found, solving does not fail with a
fault of these kinds any more, because all that remains can fail only as the work of a
solver does (`Fault.IsAboutWork`).

How the race between the session of a solve, its budget and its caller goes depends on the
time that things take. `solveWith` takes the race from outside, and the agreement holds for
every race in which the session ends as a search of its program can, with any solver of
linear programs and interrupted anywhere, or by a crash (`Faithful`). The timeline is one
of those.
-/
import Milp.Proofs.Audit.Outcomes
import Milp.Proofs.Program.OfModel
import Milp.Proofs.Search.Steps
import Milp.Proofs.Service.Mapping
import Milp.Service
import Milp.Proofs.Supervisor.Courses

set_option autoImplicit false

namespace Milp

open Attempt (FailsOnly failsOnly_ok failsOnly_error)

variable {α : Type} [Number α]

/-! ## Faults of the work -/

/-- A fault of a solver at work, or of what it answers. -/
def Fault.IsAboutWork (fault : Fault α) : Prop :=
  (∃ backend detail, fault = .solverFailed backend detail) ∨ fault.IsInconsistent

omit [Number α] in
theorem Fault.IsAboutWork.classOf {fault : Fault α} (h : fault.IsAboutWork) :
    Service.classOf fault ≠ .invalidArgument ∧ Service.classOf fault ≠ .unimplemented := by
  rcases h with ⟨backend, detail, rfl⟩ | ⟨detail, rfl⟩
  · exact ⟨nofun, nofun⟩
  · exact ⟨nofun, nofun⟩

/-- The audit finds fault with the answer, not with the model. -/
theorem Audit.failsOnly_work (tolerance : α) (m : Model α) (backend : String) (answer : Answer α) :
    FailsOnly Fault.IsAboutWork (outcome tolerance m backend answer) :=
  (failsOnly_outcome tolerance m backend answer).imp fun _ => .inr

/-! ## Sessions at work -/

namespace Program

/-- Without relations that are not linear, the rows of a program are linear. -/
theorem linearRows_ok {rows : List (Row α)} (h : ∀ r ∈ rows, r.relation ≠ .differs) :
    ∃ found, linearRows rows = .ok found := by
  induction rows with
  | nil => exact ⟨_, rfl⟩
  | cons r rest ih =>
    obtain ⟨found, hfound⟩ := ih fun r hr => h r (List.mem_cons_of_mem _ hr)
    have hlinear : ¬ (r.relation == .differs) = true := by
      simpa using h r List.mem_cons_self
    rw [linearRows, if_neg hlinear, hfound]
    split
    · split
      · exact ⟨_, rfl⟩
      · exact ⟨_, rfl⟩
    · exact ⟨_, rfl⟩

/-- The relaxation of a linear program fails only where the solver gives up. -/
theorem failsOnly_relaxBy {p : Program α} (h : ∀ r ∈ p.rows, r.relation ≠ .differs)
    (lp : Simplex.Solver α) (box : Box α) :
    FailsOnly Fault.IsAboutWork (p.relaxBy lp box) := by
  obtain ⟨found, hfound⟩ := linearRows_ok h
  rw [relaxBy]
  split
  · exact failsOnly_ok _
  split
  · exact failsOnly_ok _
  · rw [hfound]
    refine (failsOnly_ok found).bind fun _ _ => ?_
    split
    · exact failsOnly_ok _
    · split
      · exact failsOnly_ok _
      · exact failsOnly_ok _
      · exact failsOnly_error (.inl ⟨_, _, rfl⟩)
      · exact failsOnly_ok _

/-- A program that a solver takes has linear rows only. -/
theorem linear_of_ofModel {m : Model α} {p : Program α}
    (lowered : ofModel m branchAndBoundName .mixedInteger = .ok p) :
    ∀ r ∈ p.rows, r.relation ≠ .differs := by
  obtain ⟨hsupport, rfl⟩ := ofModel_eq_ok_iff.mp lowered
  intro r hr
  obtain ⟨c, hc, rfl⟩ := List.mem_map.mp hr
  exact (Capabilities.checkSupport_mixedInteger_iff branchAndBoundName m).mp hsupport c hc

end Program

/-- How a session for a program may end: as a search does that asks any solver of linear
programs and sees anything when it looks up, or by a crash. -/
inductive SessionEnd.OfSearch (p : Program α) (limits : Limits α) : SessionEnd α → Prop
  | searched (lp : Simplex.Solver α) (watch : Nat → Search.Sighting) (steps : Nat) :
      OfSearch p limits
        (Backend.conductOf (Search.run p limits (p.relaxBy lp) watch steps)).ending
  | crashed (crash : Crash) : OfSearch p limits (.crashed crash)

/-- A session that fails does so as its solver of linear programs does. -/
theorem SessionEnd.OfSearch.fault {p : Program α} {limits : Limits α} {how : SessionEnd α}
    (h : how.OfSearch p limits) (linear : ∀ r ∈ p.rows, r.relation ≠ .differs)
    {fault : Fault α} (fails : how = .failed fault) : fault.IsAboutWork := by
  cases h with
  | crashed crash => cases fails
  | searched lp watch steps =>
    cases hrun : Search.run p limits (p.relaxBy lp) watch steps with
    | answered answer => rw [hrun] at fails; cases fails
    | unfinished s => rw [hrun] at fails; cases fails
    | failed found =>
      rw [hrun] at fails
      obtain rfl : found = fault := SessionEnd.failed.inj fails
      obtain ⟨final, -, hstep⟩ := Search.run_failed hrun
      obtain ⟨here, -, -, horacle⟩ := Search.step_failed hstep
      exact Program.failsOnly_relaxBy linear lp here.box found horacle

namespace Supervisor

variable {b : Backend α} {m : Model α} {tolerance : α} {budget : Duration}

theorem failsOnly_settle {race : Race α}
    (h : ∀ how, race.noticed? = some how → ∀ fault, how = .failed fault → fault.IsAboutWork) :
    FailsOnly Fault.IsAboutWork (settle b tolerance m budget race).2 := by
  cases race with
  | ended how =>
    cases how with
    | returned answer =>
      rw [settle, settleEnd]
      have haudit := Audit.failsOnly_work tolerance m b.name answer
      cases hpasses : Audit.outcome tolerance m b.name answer with
      | ok o => exact failsOnly_ok o
      | error fault => exact failsOnly_error (haudit fault hpasses)
    | failed fault => exact failsOnly_error (h _ rfl fault rfl)
    | crashed crash => exact failsOnly_error (.inl ⟨_, _, rfl⟩)
  | interrupted why within =>
    -- of a session that was told to stop only values are looked at
    rw [settle, settleStop]
    split
    · exact failsOnly_ok _
    · next answer _ =>
      have haudit := Audit.failsOnly_work tolerance m b.name answer
      cases hpasses : Audit.outcome tolerance m b.name answer with
      | ok o => exact failsOnly_ok _
      | error fault => exact failsOnly_error (haudit fault hpasses)

/-- Once a session is open, a solve fails only as its work does. -/
theorem failsOnly_run {s : Supervisor α} {session : Session α}
    {race : Session α → Limits α → Race α} (opened : s.backend.openSession m = .ok session)
    (h : ∀ limits how, (race session limits).noticed? = some how →
      ∀ fault, how = .failed fault → fault.IsAboutWork) (cancelled : Bool) :
    FailsOnly Fault.IsAboutWork (s.run m budget cancelled race).1.result := by
  show FailsOnly Fault.IsAboutWork
    (solve s.backend s.options m budget cancelled race).result
  rw [solve, opened]
  dsimp only
  split
  · exact failsOnly_ok _
  split
  · exact failsOnly_ok _
  · exact failsOnly_settle (h _)

end Supervisor

/-! ## The two calls -/

namespace Service

/-- Build the model of a request and solve it, where the race goes as it is told. -/
def solveWith (race : Options α → Session α → Limits α → Race α) (s : Service α)
    (request : Request α) : Except Rejection (SolveResponse α) := do
  let options ← s.readOptions request
  let message ← readModel request
  let m ← rejecting (message.toModel requestModelId)
  let supervisor ← rejecting (Supervisor.ofOptions options)
  let o ← rejecting (supervisor.run m options.budget false (race options)).1.result
  pure (.ofOutcome o (wantsTree request))

/-- The race of a session that nobody cancels, by the timeline. -/
def timelineRace (options : Options α) (session : Session α) (limits : Limits α) : Race α :=
  Timeline.race (session limits none) options.budget .never options.grace

theorem rejecting_bind {β γ : Type} (x : Except (Fault α) β) (f : β → Except (Fault α) γ) :
    rejecting (x >>= f) = rejecting x >>= fun b => rejecting (f b) := by
  cases x <;> rfl

/-- A request is solved in the time that the timeline says. -/
theorem solve_eq_solveWith (s : Service α) (request : Request α) :
    s.solve request = s.solveWith timelineRace request := by
  rw [solve, solveWith]
  simp only [Supervisor.solveModel, rejecting_bind, bind_assoc]
  refine bind_congr fun options => bind_congr fun message => bind_congr fun m => ?_
  rw [Supervisor.ofOptions]
  cases Backend.ofChoice (α := α) options.backend <;> rfl

/-- What is noticed of a session is an end that it can come to. -/
def Faithful (race : Options α → Session α → Limits α → Race α) : Prop :=
  ∀ options p limits how,
    (race options (Backend.searchSession p) limits).noticed? = some how → how.OfSearch p limits

theorem faithful_timelineRace : Faithful (timelineRace : Options α → _) := by
  intro options p limits how h
  have hend : how = (Backend.searchSession p limits none).ending := by
    rw [timelineRace, Timeline.race] at h
    dsimp only at h
    split at h
    · exact (Option.some.inj h).symm
    · rw [Race.noticed?] at h
      split at h
      · exact (Option.some.inj h).symm
      · cases h
  rw [hend]
  exact .searched _ _ _

/-- **What a judgement says about solving.** -/
structure AgreesWith (judgement : Except Rejection ValidationResponse)
    (solved : Except Rejection (SolveResponse α)) : Prop where
  /-- What cannot be judged cannot be solved, for the same reason. -/
  refused : ∀ rejection, judgement = .error rejection → solved = .error rejection
  /-- A judgement against a request names one fault, and solving fails with that fault. -/
  faulty : ∀ response, judgement = .ok response → response.isValid = false →
    ∃ fault : Fault α, response.errors = [fault.message]
      ∧ (classOf fault = .invalidArgument ∨ classOf fault = .unimplemented)
      ∧ solved = .error ⟨classOf fault, "[" ++ fault.code ++ "] " ++ fault.message⟩
      ∧ ∀ nameOf, fault.describe nameOf = fault.message
  /-- After a judgement in its favour, nothing is wrong with the request. -/
  valid : ∀ response, judgement = .ok response → response.isValid = true →
    ∀ rejection, solved = .error rejection →
      rejection.kind ≠ .invalidArgument ∧ rejection.kind ≠ .unimplemented

section Agreement

variable {s : Service α} {request : Request α} {options : Options α} {message : ModelMessage α}
  {m : Model α}

theorem agreesWith_of_error (rejection : Rejection)
    {judgement : Except Rejection ValidationResponse}
    {solved : Except Rejection (SolveResponse α)} (h : judgement = .error rejection)
    (h' : solved = .error rejection) : AgreesWith judgement solved where
  refused other hother := by
    rw [h] at hother
    rw [h', Except.error.inj hother]
  faulty response hresponse := by
    rw [h] at hresponse
    cases hresponse
  valid response hresponse := by
    rw [h] at hresponse
    cases hresponse

/-- A request is found faulty, and fails with the fault. -/
theorem agreesWith_of_fault {judgement : Except Rejection ValidationResponse}
    {solved : Except Rejection (SolveResponse α)} {response : ValidationResponse} {fault : Fault α}
    (h : judgement = .ok response) (invalid : response.isValid = false)
    (errors : response.errors = [fault.message])
    (kind : classOf fault = .invalidArgument ∨ classOf fault = .unimplemented)
    (wording : ∀ nameOf, fault.describe nameOf = fault.message)
    (h' : solved = .error (rejectionOf fault)) : AgreesWith judgement solved where
  refused rejection hrejection := by
    rw [h] at hrejection
    cases hrejection
  faulty other hother _ := by
    rw [h] at hother
    rw [← Except.ok.inj hother]
    exact ⟨fault, errors, kind, h', wording⟩
  valid other hother hvalid := by
    rw [h] at hother
    rw [← Except.ok.inj hother, invalid] at hvalid
    cases hvalid

/-- A request is found in order, and fails as the work of a solver does if it fails. -/
theorem agreesWith_of_valid {judgement : Except Rejection ValidationResponse}
    {solved : Except Rejection (SolveResponse α)} {response : ValidationResponse}
    (h : judgement = .ok response) (valid : response.isValid = true)
    (h' : ∀ rejection, solved = .error rejection →
      ∃ fault : Fault α, fault.IsAboutWork ∧ rejection = rejectionOf fault) :
    AgreesWith judgement solved where
  refused rejection hrejection := by
    rw [h] at hrejection
    cases hrejection
  faulty other hother hinvalid := by
    rw [h] at hother
    rw [← Except.ok.inj hother, valid] at hinvalid
    cases hinvalid
  valid other _ _ rejection hrejection := by
    obtain ⟨fault, habout, rfl⟩ := h' rejection hrejection
    exact habout.classOf

/-- A solver that takes a model sets a search of its program to work, and there is no
other fault to be found in it. -/
theorem branchAndBound_cases (m : Model α) :
    (∃ construct, (judge Backend.branchAndBound m).isValid = false
        ∧ (judge Backend.branchAndBound m).errors
          = [(Fault.unsupportedConstruct branchAndBoundName construct : Fault α).message]
        ∧ Backend.branchAndBound.openSession m
          = .error (.unsupportedConstruct branchAndBoundName construct))
      ∨ ((judge Backend.branchAndBound m).isValid = true
        ∧ ∃ p, Program.ofModel m branchAndBoundName .mixedInteger = .ok p
          ∧ Backend.branchAndBound.openSession m = .ok (Backend.searchSession p)) := by
  by_cases hexceeded : Capabilities.mixedInteger.Exceeded (m.constraints.map (·.relation))
      (m.vars.map (·.kind))
  · obtain ⟨construct, hsupport⟩ :=
      Capabilities.checkSupport_of_exceeded branchAndBoundName hexceeded
    have hvalidate : Backend.branchAndBound.validate m
        = .error (.unsupportedConstruct branchAndBoundName construct) := by
      rw [Backend.validate, Capabilities.validate]
      show Except.map _ (Capabilities.mixedInteger.checkSupport branchAndBoundName m) = _
      rw [hsupport]
      rfl
    have hopen : Backend.branchAndBound.openSession m
        = .error (.unsupportedConstruct branchAndBoundName construct) := by
      show (Program.ofModel m branchAndBoundName .mixedInteger).map _ = _
      rw [Program.ofModel, hsupport]
      rfl
    refine .inl ⟨construct, ?_, ?_, hopen⟩
    · rw [judge, hvalidate]
      rfl
    · rw [judge, hvalidate]
  · have hsupport :=
      Capabilities.checkSupport_of_not_exceeded branchAndBoundName hexceeded
    have hvalidate : Backend.branchAndBound.validate m = .ok (Capabilities.warnings m) := by
      rw [Backend.validate, Capabilities.validate]
      show Except.map _ (Capabilities.mixedInteger.checkSupport branchAndBoundName m) = _
      rw [hsupport]
      rfl
    have hprogram := Program.ofModel_eq_ok_iff.mpr ⟨hsupport, rfl⟩
    refine .inr ⟨?_, _, hprogram, ?_⟩
    · rw [judge, hvalidate]
      rfl
    · show (Program.ofModel m branchAndBoundName .mixedInteger).map _ = _
      rw [hprogram]
      rfl

/-- The judgement on a request whose options and model are there to be read. -/
theorem validate_of_read (hoptions : s.readOptions request = .ok options)
    (hmessage : readModel request = .ok message) :
    s.validate request = match message.toModel requestModelId with
      | .error fault => .ok (.unreadable fault.message)
      | .ok m => rejecting (Backend.ofChoice options.backend) >>= fun b => .ok (judge b m) := by
  rw [validate, hoptions]
  show (readModel request >>= _) = _
  rw [hmessage]
  rfl

/-- Solving such a request. -/
theorem solveWith_of_read (race : Options α → Session α → Limits α → Race α)
    (hoptions : s.readOptions request = .ok options)
    (hmessage : readModel request = .ok message) :
    s.solveWith race request = rejecting (message.toModel requestModelId) >>= fun m =>
      rejecting (Supervisor.ofOptions options) >>= fun supervisor =>
        rejecting (supervisor.run m options.budget false (race options)).1.result >>= fun o =>
          .ok (.ofOutcome o (wantsTree request)) := by
  rw [solveWith, hoptions]
  show (readModel request >>= _) = _
  rw [hmessage]
  rfl

/-- Both calls once the model of a request is built. -/
theorem agreesWith_of_model {race : Options α → Session α → Limits α → Race α}
    (faithful : Faithful race) (hoptions : s.readOptions request = .ok options)
    (hmessage : readModel request = .ok message)
    (hmodel : message.toModel requestModelId = .ok m) :
    AgreesWith (s.validate request) (s.solveWith race request) := by
  have hvalidate := validate_of_read hoptions hmessage
  have hsolve := solveWith_of_read race hoptions hmessage
  rw [hmodel] at hvalidate hsolve
  replace hsolve : s.solveWith race request
      = rejecting (Supervisor.ofOptions options) >>= fun supervisor =>
          rejecting (supervisor.run m options.budget false (race options)).1.result >>= fun o =>
            .ok (.ofOutcome o (wantsTree request)) := hsolve
  cases hbackend : Backend.ofChoice (α := α) options.backend with
  | error fault =>
    refine agreesWith_of_error (rejectionOf fault) ?_ ?_
    · rw [hvalidate]
      simp only [hbackend]
      rfl
    · rw [hsolve, Supervisor.ofOptions, hbackend]
      rfl
  | ok b =>
    -- there is only one solver to be had
    obtain rfl : Backend.branchAndBound = b := by
      cases hchoice : options.backend <;> rw [hchoice] at hbackend
      · exact Except.ok.inj hbackend
      · exact Except.ok.inj hbackend
      · cases hbackend
      · cases hbackend
    simp only [hbackend] at hvalidate
    rw [Supervisor.ofOptions, hbackend] at hsolve
    replace hvalidate : s.validate request = .ok (judge Backend.branchAndBound m) := hvalidate
    replace hsolve : s.solveWith race request
        = rejecting ((Supervisor.new Backend.branchAndBound options).run m options.budget false
            (race options)).1.result >>= fun o => .ok (.ofOutcome o (wantsTree request)) := hsolve
    rcases branchAndBound_cases m with ⟨construct, hinvalid, herrors, hopen⟩ |
      ⟨hvalid, p, hprogram, hopen⟩
    · have hrun : ((Supervisor.new Backend.branchAndBound options).run m options.budget false
          (race options)).1.result
            = .error (.unsupportedConstruct branchAndBoundName construct) := by
        show (Supervisor.solve Backend.branchAndBound options m options.budget false
          (race options)).result = _
        rw [Supervisor.solve, hopen]
      refine agreesWith_of_fault hvalidate hinvalid herrors (.inr rfl) (fun _ => rfl) ?_
      rw [hsolve, hrun]
      rfl
    · have hfails : FailsOnly Fault.IsAboutWork
          ((Supervisor.new Backend.branchAndBound options).run m options.budget false
            (race options)).1.result :=
        Supervisor.failsOnly_run hopen (fun limits how hhow fault =>
          (faithful options p limits how hhow).fault (Program.linear_of_ofModel hprogram)) false
      refine agreesWith_of_valid hvalidate hvalid fun rejection hrejection => ?_
      cases hrun : ((Supervisor.new Backend.branchAndBound options).run m options.budget false
          (race options)).1.result with
      | ok o =>
        rw [hsolve, hrun] at hrejection
        cases hrejection
      | error fault =>
        rw [hsolve, hrun] at hrejection
        exact ⟨fault, hfails fault hrun, (Except.error.inj hrejection).symm⟩

/-- Both calls on any request, however the race goes. -/
theorem agreesWith_solveWith {race : Options α → Session α → Limits α → Race α}
    (faithful : Faithful race) (s : Service α) (request : Request α) :
    AgreesWith (s.validate request) (s.solveWith race request) := by
  cases hoptions : s.readOptions request with
  | error rejection =>
    exact agreesWith_of_error rejection (by rw [validate, hoptions]; rfl)
      (by rw [solveWith, hoptions]; rfl)
  | ok options =>
    cases hmessage : readModel request with
    | error rejection =>
      refine agreesWith_of_error rejection ?_ ?_
      · rw [validate, hoptions]
        show (readModel request >>= _) = _
        rw [hmessage]
        rfl
      · rw [solveWith, hoptions]
        show (readModel request >>= _) = _
        rw [hmessage]
        rfl
    | ok message =>
      cases hmodel : message.toModel requestModelId with
      | ok m => exact agreesWith_of_model faithful hoptions hmessage hmodel
      | error fault =>
        have habout := failsOnly_toModel message requestModelId fault hmodel
        have hvalidate : s.validate request = .ok (.unreadable fault.message) := by
          rw [validate_of_read hoptions hmessage, hmodel]
        refine agreesWith_of_fault hvalidate rfl rfl (.inl habout.kind) habout.wording ?_
        rw [solveWith_of_read race hoptions hmessage, hmodel]
        rfl

end Agreement

/-- **The judgement on a request and the attempt to solve it agree**, for every request and
all defaults, in the time that the timeline says and in every other. -/
theorem validate_agrees_with_solve (s : Service α) (request : Request α) :
    AgreesWith (s.validate request) (s.solve request)
      ∧ ∀ race, Faithful race → AgreesWith (s.validate request) (s.solveWith race request) := by
  rw [solve_eq_solveWith]
  exact ⟨agreesWith_solveWith faithful_timelineRace s request,
    fun race faithful => agreesWith_solveWith faithful s request⟩

end Service

end Milp
