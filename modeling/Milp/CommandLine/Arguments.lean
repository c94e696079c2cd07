/-
`Arguments` -- what the words on a command line ask for.

A command line names one file, and may set options and flags. An option takes a
value, as the next word or after an equals sign; as the next word it must not
itself look like an option. A flag takes none. Nothing may be set twice. After a
word of two dashes every word counts as a file.

Words are read from left to right, and a word is judged when it is reached: help
and the version are answered as soon as they are asked for, whatever follows, and
not at all if something before them is wrong.
-/
import Milp.Options

set_option autoImplicit false

namespace Milp.CommandLine

/-! ## Names -/

/-- What takes a value. -/
inductive OptionName where
  | backend
  | timeLimit
  | nodeLimit
  | tolerance
deriving DecidableEq, Repr

/-- What takes no value. -/
inductive FlagName where
  | printModel
  | printTree
  | verbose
deriving DecidableEq, Repr

def OptionName.word : OptionName → String
  | .backend => "--backend"
  | .timeLimit => "--time-limit"
  | .nodeLimit => "--node-limit"
  | .tolerance => "--tolerance"

def FlagName.word : FlagName → String
  | .printModel => "--print-model"
  | .printTree => "--print-tree"
  | .verbose => "--verbose"

def OptionName.all : List OptionName := [.backend, .timeLimit, .nodeLimit, .tolerance]

def FlagName.all : List FlagName := [.printModel, .printTree, .verbose]

/-! ## What is asked for -/

/-- A model to solve, and how. -/
structure Invocation (α : Type) where
  file : String
  backend : BackendChoice
  /-- In seconds. -/
  timeLimit : Option α
  nodeLimit : Option Nat
  tolerance : α
  printModel : Bool
  printTree : Bool
  verbose : Bool
deriving Repr

/-- What a command line asks for. -/
inductive Command (α : Type) where
  | solve (invocation : Invocation α)
  | help
  | version
deriving Repr

/-- Why a command line asks for nothing that can be done. -/
inductive Misuse where
  | unknown (word : String)
  | repeated (word : String)
  | missingValue (option : OptionName)
  | unwantedValue (word value : String)
  | unreadable (option : OptionName) (value : String)
  | emptyFile
  | missingFile
deriving DecidableEq, Repr

def Misuse.message : Misuse → String
  | .unknown word => "unexpected argument '" ++ word ++ "' found"
  | .repeated word => "the argument '" ++ word ++ "' cannot be used multiple times"
  | .missingValue option => "a value is required for '" ++ option.word ++ "' but none was supplied"
  | .unwantedValue word value =>
    "unexpected value '" ++ value ++ "' for '" ++ word ++ "' found; no more were expected"
  | .unreadable option value => "invalid value '" ++ value ++ "' for '" ++ option.word ++ "'"
  | .emptyFile => "a value is required for '<FILE>' but none was supplied"
  | .missingFile => "the following required arguments were not provided: <FILE>"

/-! ## Words -/

/-- A word by itself. -/
inductive Word where
  /-- Two dashes and nothing else. -/
  | separator
  /-- Two dashes, a name, and perhaps an equals sign and a value. -/
  | long (name : String) (value : Option String)
  /-- One dash and letters. -/
  | short (letters : List Char)
  | plain (text : String)
deriving DecidableEq, Repr

def splitValue (cs : List Char) : List Char × Option (List Char) :=
  match cs.dropWhile (· ≠ '=') with
  | [] => (cs, none)
  | _ :: value => (cs.takeWhile (· ≠ '='), some value)

def Word.ofText (text : String) : Word :=
  match text.toList with
  | ['-', '-'] => .separator
  | '-' :: '-' :: _ =>
    let (name, value) := splitValue text.toList
    .long (String.ofList name) (value.map String.ofList)
  | '-' :: letter :: letters => .short (letter :: letters)
  | _ => .plain text

/-! ## Reading -/

/-- What has been set so far. -/
structure Settings (α : Type) where
  file : Option String
  backend : Option BackendChoice
  timeLimit : Option α
  nodeLimit : Option Nat
  tolerance : Option α
  flags : List FlagName
deriving Repr

def Settings.initial {α : Type} : Settings α := ⟨none, none, none, none, none, []⟩

namespace Settings

variable {α : Type}

def has (s : Settings α) : OptionName → Bool
  | .backend => s.backend.isSome
  | .timeLimit => s.timeLimit.isSome
  | .nodeLimit => s.nodeLimit.isSome
  | .tolerance => s.tolerance.isSome

def setFile (s : Settings α) (text : String) : Except Misuse (Settings α) :=
  if s.file.isSome then .error (.unknown text)
  else if text.isEmpty then .error .emptyFile
  else .ok { s with file := some text }

def setFlag (s : Settings α) (flag : FlagName) : Except Misuse (Settings α) :=
  if s.flags.contains flag then .error (.repeated flag.word)
  else .ok { s with flags := flag :: s.flags }

variable [Number α]

def readNumber (option : OptionName) (text : String) : Except Misuse α :=
  match Numeral.ofText text with
  | .ok numeral => .ok (Number.ofNumeral numeral)
  | .error _ => .error (.unreadable option text)

omit [Number α] in
/-- Read a count: digits, after a plus sign or not, of a number below `2 ^ 64`. -/
def readCount (option : OptionName) (text : String) : Except Misuse Nat :=
  let digits := match text.toList with
    | '+' :: rest => rest
    | cs => cs
  let value := Numeral.digitsValue digits
  if digits.isEmpty || !digits.all Char.isDigit || Nat.pow 2 64 ≤ value then
    .error (.unreadable option text)
  else .ok value

omit [Number α] in
def readBackend (text : String) : Except Misuse BackendChoice :=
  match (BackendChoice.ofText text : Except (Fault Unit) BackendChoice) with
  | .ok choice => .ok choice
  | .error _ => .error (.unreadable .backend text)

def setOption (s : Settings α) (option : OptionName) (text : String) :
    Except Misuse (Settings α) :=
  if s.has option then .error (.repeated option.word)
  else match option with
    | .backend => (readBackend text).map fun choice => { s with backend := some choice }
    | .timeLimit => (readNumber option text).map fun number => { s with timeLimit := some number }
    | .nodeLimit => (readCount option text).map fun count => { s with nodeLimit := some count }
    | .tolerance => (readNumber option text).map fun number => { s with tolerance := some number }

/-- What has been asked for at the end of the command line. -/
def complete (s : Settings α) : Except Misuse (Command α) :=
  match s.file with
  | none => .error .missingFile
  | some file =>
    .ok (.solve
      { file := file
        backend := s.backend.getD .auto
        timeLimit := s.timeLimit
        nodeLimit := s.nodeLimit
        tolerance := s.tolerance.getD Audit.defaultTolerance
        printModel := s.flags.contains .printModel
        printTree := s.flags.contains .printTree
        verbose := s.flags.contains .verbose })

end Settings

variable {α : Type} [Number α]

def commandOfLetter? : Char → Option (Command α)
  | 'h' => some .help
  | 'V' => some .version
  | _ => none

def commandOfName? (name : String) : Option (Command α) :=
  if name == "--help" then some .help
  else if name == "--version" then some .version
  else none

def readBare (s : Settings α) (name : String) : Except Misuse (Settings α) :=
  match FlagName.all.find? fun flag => flag.word == name with
  | some flag => s.setFlag flag
  | none => .error (.unknown name)

def readFiles (s : Settings α) (words : List String) : Except Misuse (Command α) := do
  (← words.foldlM Settings.setFile s).complete

/-- Read the words of a command line. `pending` is an option that waits for its
value. -/
def readWords (pending : Option OptionName) (s : Settings α) :
    List String → Except Misuse (Command α)
  | [] =>
    match pending with
    | some option => .error (.missingValue option)
    | none => s.complete
  | text :: rest =>
    -- a word with a dash is never taken for the value of an option
    match pending, Word.ofText text with
    | some option, .plain value => do readWords none (← s.setOption option value) rest
    | some option, _ => .error (.missingValue option)
    | none, .plain file => do readWords none (← s.setFile file) rest
    | none, .separator => readFiles s rest
    | none, .short letters =>
      match commandOfLetter? (letters.headD ' ') with
      | some command => .ok command
      | none => .error (.unknown text)
    | none, .long name value =>
      match OptionName.all.find? fun option => option.word == name, value with
      | some option, some value => do readWords none (← s.setOption option value) rest
      | some option, none => readWords (some option) s rest
      | none, some value => .error (.unwantedValue name value)
      | none, none =>
        match commandOfName? name with
        | some command => .ok command
        | none => do readWords none (← readBare s name) rest

def read (arguments : List String) : Except Misuse (Command α) :=
  readWords none .initial arguments

/-! ## Texts about the program -/

def usage : String := "Usage: optbridge-solve [OPTIONS] <FILE>"

def versionText : String := "optbridge 0.1.0"

def helpText : String :=
  "\n".intercalate
    ["Solve an MPS model with an optbridge backend",
     "",
     usage,
     "",
     "Arguments:",
     "  <FILE>  Path to the MPS file",
     "",
     "Options:",
     "      --backend <BACKEND>        Backend: auto, bnb, highs or cbc [default: auto]",
     "      --time-limit <TIME_LIMIT>  Time budget in seconds (unlimited when omitted)",
     "      --node-limit <NODE_LIMIT>  Stop the search after this many nodes",
     "      --tolerance <TOLERANCE>    Feasibility and integrality tolerance [default: 0.000001]",
     "      --print-model              Print the model before solving",
     "      --print-tree               Print the branch-and-bound decision tree",
     "      --verbose                  Ask the backend for its own log output",
     "  -h, --help                     Print help",
     "  -V, --version                  Print version"]

end Milp.CommandLine
