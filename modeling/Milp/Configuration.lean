/-
`Configuration` -- the settings of a running service, from named texts.

Four names are looked up: where to listen, which solver to use, how many seconds
a solve may take, and the tolerance. A name that is not set leaves its default. A
name that is set to something unusable is a fault; of several the first in this
order is reported.
-/
import Milp.Options
import Milp.Net.SocketAddress

set_option autoImplicit false

namespace Milp

/-- The settings of a running service. -/
structure Configuration (α : Type) where
  address : Net.SocketAddress
  options : Options α
deriving Repr

namespace Configuration

variable {α : Type} [Number α]

def addressKey : String := "OPTBRIDGE_ADDR"
def backendKey : String := "OPTBRIDGE_BACKEND"
def timeLimitKey : String := "OPTBRIDGE_TIME_LIMIT_SECS"
def toleranceKey : String := "OPTBRIDGE_TOLERANCE"

/-- Where a service listens if nothing else is set. -/
def defaultAddress : String := "0.0.0.0:50051"

/-- Read a number, with blanks around it allowed. -/
def readNumber (key text : String) : Except (Fault α) α :=
  match Numeral.ofText (Text.trim text) with
  | .ok numeral => .ok (Number.ofNumeral numeral)
  | .error why => .error (.configuration (key ++ " '" ++ text ++ "': " ++ why.message))

def readAddress (text : String) : Except (Fault α) Net.SocketAddress :=
  match Net.SocketAddress.ofText? text with
  | some address => .ok address
  | none =>
    .error (.configuration
      (addressKey ++ " '" ++ text ++ "': " ++ Net.SocketAddress.malformed))

def readTimeLimit (text : String) : Except (Fault α) Duration := do
  let seconds : α ← readNumber timeLimitKey text
  Options.timeLimitOfSeconds seconds timeLimitKey

/-- Read a tolerance; it must be positive and finite. -/
def readTolerance (text : String) : Except (Fault α) α := do
  let tolerance : α ← readNumber toleranceKey text
  if Number.le tolerance 0 || !Number.isFinite tolerance then
    throw (.configuration (toleranceKey ++ " must be positive, got " ++ Number.text tolerance))
  pure tolerance

def ofLookup (lookup : String → Option String) : Except (Fault α) (Configuration α) := do
  let address ← readAddress ((lookup addressKey).getD defaultAddress)
  let options : Options α := .initial
  let backend ← match lookup backendKey with
    | some text => BackendChoice.ofText text
    | none => pure options.backend
  let timeLimit ← match lookup timeLimitKey with
    | some text => some <$> readTimeLimit text
    | none => pure options.timeLimit
  let tolerance ← match lookup toleranceKey with
    | some text => readTolerance text
    | none => pure options.tolerance
  pure ⟨address, { options with backend, timeLimit, tolerance }⟩

end Configuration

end Milp
