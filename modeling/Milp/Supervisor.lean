/-
`Supervisor` -- one solve from start to end, within a budget.

A supervised solve is a race. The session works; against it run the budget and
the caller, who may cancel. If the session ends first, its end is the result. If
not, the session is told to stop and gets a grace to hand over what it has. What
happens when is no business of this file: `Supervisor.run` is told how the race
went and says what follows, for every way in which it can go.

The phases that a solve passes through are recorded, with the calls made to the
session. A solve always ends in one of four phases: completed, timed out,
cancelled or failed.
-/
import Milp.Audit
import Milp.Backend

set_option autoImplicit false

namespace Milp

/-- Where a supervisor is in its work. -/
inductive Phase where
  | idle
  | building
  | solving
  | completed
  | timedOut
  | failed
  | cancelled
deriving DecidableEq, Repr

namespace Phase

def label : Phase → String
  | .idle => "idle"
  | .building => "building"
  | .solving => "solving"
  | .completed => "completed"
  | .timedOut => "timed-out"
  | .failed => "failed"
  | .cancelled => "cancelled"

def isTerminal : Phase → Bool
  | .completed | .timedOut | .failed | .cancelled => true
  | .idle | .building | .solving => false

/-- All phases, in the order of a solve. -/
def all : List Phase :=
  [.idle, .building, .solving, .completed, .timedOut, .failed, .cancelled]

/-- The phase in which a solve with an outcome ends. -/
def ofOutcome : Outcome.Status → Phase
  | .timedOut => .timedOut
  | .interrupted => .cancelled
  | _ => .completed

end Phase

/-! ## The race -/

/-- Why a session is told to stop. -/
inductive Interruption where
  | deadline
  | cancelled
deriving DecidableEq, Repr

def Interruption.status : Interruption → Outcome.Status
  | .deadline => .timedOut
  | .cancelled => .interrupted

def Interruption.phase : Interruption → Phase
  | .deadline => .timedOut
  | .cancelled => .cancelled

/-- How the race between the session, the budget and the caller went. -/
inductive Race (α : Type) where
  /-- The session ended first. -/
  | ended (how : SessionEnd α)
  /-- The session was told to stop, and ended within the grace, or did not. -/
  | interrupted (why : Interruption) (within : Option (SessionEnd α))

/-! ## What follows -/

namespace Supervisor

variable {α : Type} [Number α]

/-- The record of one solve. -/
structure Record (α : Type) where
  /-- The phases entered, in order. -/
  phases : List Phase
  /-- The calls made to the session, in order. -/
  calls : List (Limits α)
  result : Except (Fault α) (Outcome α)

omit [Number α] in
def Record.lastPhase (r : Record α) : Phase := r.phases.getLast?.getD .idle

def unfinished (b : Backend α) (m : Model α) (status : Outcome.Status) (budget : Duration) :
    Outcome α :=
  { Outcome.bare status m b.name with budget := some budget }

/-- How a session that ended by itself is settled: the phase it leads to and the
result. -/
def settleEnd (b : Backend α) (tolerance : α) (m : Model α) :
    SessionEnd α → Phase × Except (Fault α) (Outcome α)
  | .returned answer =>
    match Audit.outcome tolerance m b.name answer with
    | .ok o => (.ofOutcome o.status, .ok o)
    | .error fault => (.failed, .error fault)
  | .failed fault => (.failed, .error fault)
  | .crashed crash => (.failed, .error (.solverFailed b.name crash.detail))

/-- The answer handed over within the grace, if it has an assignment. -/
def handedOver? : Option (SessionEnd α) → Option (Answer α)
  | some (.returned answer) => if answer.values.isSome then some answer else none
  | _ => none

/-- How a session that was told to stop is settled. What it handed over is
checked like any answer, but its status is that of the interruption. -/
def settleStop (b : Backend α) (tolerance : α) (m : Model α) (budget : Duration)
    (why : Interruption) (within : Option (SessionEnd α)) :
    Phase × Except (Fault α) (Outcome α) :=
  match handedOver? within with
  | none => (why.phase, .ok (unfinished b m why.status budget))
  | some answer =>
    match Audit.outcome tolerance m b.name answer with
    | .ok o => (why.phase, .ok { o with status := why.status, budget := some budget })
    | .error fault => (.failed, .error fault)

def settle (b : Backend α) (tolerance : α) (m : Model α) (budget : Duration) :
    Race α → Phase × Except (Fault α) (Outcome α)
  | .ended how => settleEnd b tolerance m how
  | .interrupted why within => settleStop b tolerance m budget why within

/-- One solve. `cancelled` says whether the caller cancelled before the session
was set to work, and `race` how the race goes if it comes to that. -/
def solve (b : Backend α) (options : Options α) (m : Model α) (budget : Duration)
    (cancelled : Bool) (race : Session α → Limits α → Race α) : Record α :=
  match b.openSession m with
  | .error fault => ⟨[.building, .failed], [], .error fault⟩
  | .ok session =>
    -- neither of these two ever calls the session
    if budget = .zero then
      ⟨[.building, .timedOut], [], .ok (unfinished b m .timedOut budget)⟩
    else if cancelled then
      ⟨[.building, .cancelled], [], .ok (unfinished b m .interrupted budget)⟩
    else
      let limits := options.limits budget
      let (phase, result) := settle b options.tolerance m budget (race session limits)
      ⟨[.building, .solving, phase], [limits], result⟩

end Supervisor

/-- A solver with the options of its caller, and the phase it has come to. It
can be used for one solve after another. -/
structure Supervisor (α : Type) where
  backend : Backend α
  options : Options α
  phase : Phase

namespace Supervisor

variable {α : Type} [Number α]

omit [Number α] in
def new (backend : Backend α) (options : Options α) : Supervisor α := ⟨backend, options, .idle⟩

/-- A supervisor for the solver that its options name. -/
def ofOptions (options : Options α) : Except (Fault α) (Supervisor α) :=
  (Backend.ofChoice options.backend).map fun backend => new backend options

def run (s : Supervisor α) (m : Model α) (budget : Duration) (cancelled : Bool)
    (race : Session α → Limits α → Race α) : Record α × Supervisor α :=
  let record := solve s.backend s.options m budget cancelled race
  (record, { s with phase := record.lastPhase })

end Supervisor

end Milp
