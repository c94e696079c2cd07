/-
`Main` -- the program: solve an MPS file from the command line.

This is the outer layer. It reads the file, runs the search against the clock of
the machine, and prints. What is printed, and with which code the program exits,
is decided by `Milp.CommandLine`.
-/
import Milp.CommandLine.Transcript
import Milp.Number.Binary64

set_option autoImplicit false

namespace Milp.CommandLine

/-- Search step by step, with a look at the clock before every node. -/
partial def searchAgainstClock (p : Program Float) (limits : Limits Float) (start : Nat)
    (s : Search.State Float) : IO (SessionEnd Float) := do
  let now ← IO.monoNanosNow
  match Search.step p limits (p.relax Backend.noise) ⟨false, ⟨now - start⟩⟩ s with
  | .proceed next => searchAgainstClock p limits start next
  | .finished last status => pure (.returned (last.answer status))
  | .failed fault => pure (.failed fault)

/-- Let a prepared solve take place. A solve without any budget does not reach
the solver. -/
def solveAgainstClock (p : Prepared Float) : IO Transcript := do
  let supervisor := p.supervisor
  let budget := supervisor.options.budget
  let start ← IO.monoNanosNow
  let ending ← match Program.ofModel p.model branchAndBoundName supervisor.backend.capabilities with
    | .error fault => pure (.failed fault)
    | .ok program =>
      if budget = .zero then pure (.returned (.ofStatus .timeLimit))
      else
        searchAgainstClock program (supervisor.options.limits budget) start (.initial program)
  let result := (supervisor.run p.model budget false fun _ _ => .ended ending).1.result
  let stop ← IO.monoNanosNow
  pure <| p.conclude <| result.map fun o =>
    { o with statistics := { o.statistics with solveTime := ⟨stop - start⟩ } }

def contentOf (path : String) : IO FileContent := do
  try .bytes <$> IO.FS.readBinFile path
  catch fault => pure <|
    match fault with
    | .inappropriateType .. => .directory
    | .permissionDenied .. => .denied
    | _ => .missing

def carryOut (command : Command Float) : IO Transcript := do
  match command with
  | .solve i =>
    match i.prepare (← contentOf i.file) with
    | .error done => pure done
    | .ok p => solveAgainstClock p
  | other => pure (transcript other fun _ => .missing)

/-- Read the command line, carry it out, print, and tell the exit code. -/
def execute (arguments : List String) : IO UInt32 := do
  let done ← match read arguments with
    | .error misuse => pure (Transcript.ofMisuse misuse)
    | .ok command => carryOut command
  (← IO.getStdout).putStr done.output
  (← IO.getStderr).putStr done.errors
  pure done.exitCode.toUInt32

end Milp.CommandLine

def main (arguments : List String) : IO UInt32 := Milp.CommandLine.execute arguments
