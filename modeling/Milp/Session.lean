/-
`Session` -- a solver at work on one model, seen from outside.

A session that is set to work ends in one of three ways: it returns an answer,
it reports a fault, or it breaks off, because it panics or because its task is
aborted from outside. Its *conduct* is how it ends and when: at once, after a
while whatever happens, or as soon as it is told to stop.
-/
import Milp.Answer
import Milp.Fault
import Milp.Limits

set_option autoImplicit false

namespace Milp

/-- How a session breaks off. -/
inductive Crash where
  /-- It panics and leaves a message. -/
  | message (text : String)
  /-- It panics and leaves something that is not a text. -/
  | unreadable
  /-- Its task is aborted. -/
  | aborted
deriving DecidableEq, Repr

def Crash.text : Crash → String
  | .message text => text
  | .unreadable => "unknown panic payload"
  | .aborted => "session task was aborted"

/-- The text by which a crash is reported. A panic is named as such. -/
def Crash.detail : Crash → String
  | .aborted => Crash.aborted.text
  | panic => "session panicked: " ++ panic.text

/-- How a session ends. -/
inductive SessionEnd (α : Type) where
  | returned (answer : Answer α)
  | failed (fault : Fault α)
  | crashed (crash : Crash)

/-- When a session ends. -/
inductive Pace where
  | atOnce
  | after (delay : Duration)
  | onceStopped
deriving DecidableEq, Repr

/-- When and how a session ends. -/
structure Conduct (α : Type) where
  pace : Pace
  ending : SessionEnd α

/-- A session conducts itself according to the limits it is given and the moment,
if there is one, at which it is told to stop. -/
abbrev Session (α : Type) := Limits α → Option Duration → Conduct α

end Milp
