/-
`Backend` -- solvers: a name, what they can express, and how they open a session.

The one solver that is always there is branch and bound. Its session searches
the program of the model; a session can be set to work any number of times, and
every time it starts afresh.
-/
import Milp.BackendChoice
import Milp.Options
import Milp.Search
import Milp.Session

set_option autoImplicit false

namespace Milp

/-- A solver. -/
structure Backend (α : Type) where
  name : String
  capabilities : Capabilities
  openSession : Model α → Except (Fault α) (Session α)

namespace Backend

variable {α : Type}

def validate (b : Backend α) (m : Model α) : Except (Fault α) (List String) :=
  b.capabilities.validate b.name m

/-- Whether a solver takes variables that must be whole. -/
def supportsIntegers (b : Backend α) : Bool := b.capabilities.integerDomains

/-! ## Branch and bound -/

/-- What counts as zero in linear programs: well above what rounding leaves
behind in double precision, well below what a model can mean by a difference. -/
def noise [Number α] : α := 1e-13

/-- The bound on the steps of a search that nobody stops. -/
def patience : Nat := 1000000

/-- How long a search takes for a node. -/
def nodeTime : Duration := ⟨20000⟩

/-- What a search sees when it looks up, if it is told to stop at a moment. The
clock has moved even before the first node. -/
def sightingAt (stop : Option Duration) (explored : Nat) : Search.Sighting :=
  let elapsed := 1 + explored * nodeTime.nanoseconds
  ⟨stop.any fun moment => moment.nanoseconds ≤ elapsed, ⟨elapsed⟩⟩

/-- How a run looks from outside. A search that was interrupted, or that ran out
of patience, would have gone on until it is stopped. -/
def conductOf (run : Search.Run α) : Conduct α :=
  match run with
  | .answered answer =>
    ⟨if answer.status == .interrupted then .onceStopped else .atOnce, .returned answer⟩
  | .failed fault => ⟨.atOnce, .failed fault⟩
  | .unfinished s => ⟨.onceStopped, .returned (s.answer .interrupted)⟩

variable [Number α]

def searchSession (p : Program α) : Session α := fun limits stop =>
  conductOf (Search.run p limits (p.relax noise) (sightingAt stop) patience)

def branchAndBound : Backend α where
  name := branchAndBoundName
  capabilities := .mixedInteger
  openSession m := (Program.ofModel m branchAndBoundName .mixedInteger).map searchSession

/-- The solver that a choice stands for, if it is available. -/
def ofChoice (choice : BackendChoice) : Except (Fault α) (Backend α) :=
  match choice with
  | .auto | .branchAndBound => .ok branchAndBound
  | .coinCbc | .highs =>
    .error (.solverNotAvailable
      ("backend '" ++ choice.label ++ "' is not compiled into this build"))

def standard : Backend α := branchAndBound

end Backend

end Milp
