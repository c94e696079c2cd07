/-
`Timeline` -- how a race goes, from when everything happens.

A session's conduct, the budget, the moment of a cancellation and the grace
determine the race. The session wins if it ends no later than the budget and the
cancellation; of these two the earlier interrupts. A session that reacts to being
told to stop needs some of the grace to do so.
-/
import Milp.Supervisor

set_option autoImplicit false

namespace Milp

/-- When the caller of a solve cancels. -/
inductive Cancellation where
  | never
  /-- Before the solve begins. -/
  | before
  /-- Some time after it begins. -/
  | after (delay : Duration)
deriving DecidableEq, Repr

namespace Timeline

variable {α : Type}

/-- What interrupts a solve first, and when, in nanoseconds. -/
def interruption (budget : Duration) : Cancellation → Interruption × Nat
  | .after delay =>
    if delay.nanoseconds < budget.nanoseconds then (.cancelled, delay.nanoseconds)
    else (.deadline, budget.nanoseconds)
  | .never | .before => (.deadline, budget.nanoseconds)

/-- Whether a session ends by itself before a moment. -/
def endsBy (pace : Pace) (moment : Nat) : Bool :=
  match pace with
  | .atOnce => true
  | .after delay => delay.nanoseconds ≤ moment
  | .onceStopped => false

/-- Whether a session that is told to stop at a moment ends within the grace. -/
def endsWithin (pace : Pace) (moment : Nat) (grace : Duration) : Bool :=
  match pace with
  | .atOnce => true
  | .after delay => delay.nanoseconds ≤ moment + grace.nanoseconds
  | .onceStopped => 0 < grace.nanoseconds

/-- When the session of a solve is told to stop by the caller. -/
def stopMoment : Cancellation → Option Duration
  | .after delay => some delay
  | .never | .before => none

def race (conduct : Conduct α) (budget : Duration) (cancel : Cancellation) (grace : Duration) :
    Race α :=
  let (why, moment) := interruption budget cancel
  if endsBy conduct.pace moment then .ended conduct.ending
  else
    .interrupted why
      (if endsWithin conduct.pace moment grace then some conduct.ending else none)

end Timeline

namespace Supervisor

variable {α : Type} [Number α]

/-- Do one solve whose events happen when the timeline says. -/
def runTimed (s : Supervisor α) (m : Model α) (budget : Duration) (cancel : Cancellation) :
    Record α × Supervisor α :=
  s.run m budget (cancel == .before) fun session limits =>
    Timeline.race (session limits (Timeline.stopMoment cancel)) budget cancel s.options.grace

/-- Solve a model with the solver and the time that the options name. -/
def solveModel (m : Model α) (options : Options α) : Except (Fault α) (Outcome α) := do
  let s ← ofOptions options
  (s.runTimed m options.budget .never).1.result

end Supervisor

end Milp
