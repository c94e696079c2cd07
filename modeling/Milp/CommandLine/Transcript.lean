/-
`Transcript` -- what the program prints and how it exits.

A solve on the command line has two parts. `prepare` reads the file, prints the
model if that is asked for, and settles the options. `conclude` prints what came
of the solve. What has been printed before a fault stays printed; the fault goes
to the other stream, and the exit code is one.
-/
import Milp.CommandLine.Arguments
import Milp.Mps.Reader
import Milp.SearchTree.Rendering
import Milp.Timeline

set_option autoImplicit false

namespace Milp.CommandLine

/-- What a program has printed and how it exits. -/
structure Transcript where
  exitCode : Nat
  output : String
  errors : String
deriving DecidableEq, Repr

def Transcript.success (output : String) : Transcript := ⟨0, output, ""⟩

/-- The exit for a command line that cannot be read. -/
def Transcript.ofMisuse (misuse : Misuse) : Transcript :=
  ⟨2, "", "error: " ++ misuse.message ++ "\n\n" ++ usage
    ++ "\n\nFor more information, try '--help'.\n"⟩

variable {α : Type} [Number α]

def Transcript.ofFault (output : String) (fault : Fault α) : Transcript :=
  ⟨1, output, fault.message ++ "\n"⟩

/-! ## Before the solve -/

def Invocation.options (i : Invocation α) : Except (Fault α) (Options α) := do
  let timeLimit ← match i.timeLimit with
    | some seconds => some <$> Options.timeLimitOfSeconds seconds OptionName.timeLimit.word
    | none => pure none
  pure
    { (Options.initial : Options α) with
      backend := i.backend
      tolerance := i.tolerance
      verbose := i.verbose
      timeLimit := timeLimit
      nodeLimit := i.nodeLimit }

/-- A solve that is about to begin. -/
structure Prepared (α : Type) where
  invocation : Invocation α
  model : Model α
  supervisor : Supervisor α
  /-- What has been printed so far. -/
  output : String

/-- The identity of the model that the program reads. -/
def modelId : ModelId := ⟨1⟩

def Invocation.opening (i : Invocation α) (m : Model α) : String :=
  if i.printModel then m.text ++ "\n" else ""

/-- Get ready to solve: read the file, print the model, settle the options. -/
def Invocation.prepare (i : Invocation α) (content : FileContent) :
    Except Transcript (Prepared α) :=
  match (Mps.readContent modelId content : Except (Fault α) (Model α)) with
  | .error fault => .error (.ofFault "" fault)
  | .ok m =>
    let output := i.opening m
    match i.options.bind Supervisor.ofOptions with
    | .error fault => .error (.ofFault output fault)
    | .ok supervisor => .ok ⟨i, m, supervisor, output⟩

/-! ## After the solve -/

def treeText (m : Model α) (o : Outcome α) : String :=
  match o.tree with
  | some tree => "Decision tree\n" ++ tree.report m ++ "\n"
  | none => "Decision tree: not recorded by " ++ o.backend ++ "\n"

def closing (i : Invocation α) (m : Model α) (o : Outcome α) : String :=
  (if i.printTree then treeText m o else "") ++ o.text ++ "\n"
    ++ (if o.hasAssignment then "" else "No solution found\n")

def Prepared.conclude (p : Prepared α) (result : Except (Fault α) (Outcome α)) : Transcript :=
  match result with
  | .error fault => .ofFault p.output fault
  | .ok o => .success (p.output ++ closing p.invocation p.model o)

/-! ## All at once -/

/-- A whole run that nobody disturbs, given the contents of files. -/
def transcript (command : Command α) (contentOf : String → FileContent) : Transcript :=
  match command with
  | .help => .success (helpText ++ "\n")
  | .version => .success (versionText ++ "\n")
  | .solve i =>
    match i.prepare (contentOf i.file) with
    | .error done => done
    | .ok p =>
      let budget := p.supervisor.options.budget
      p.conclude (p.supervisor.runTimed p.model budget .never).1.result

end Milp.CommandLine
