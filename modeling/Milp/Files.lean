/-
`Files` -- what stands behind a path.

A path may lead nowhere, or to a directory, or to a file with some bytes in it.
Only a file is read, and only if its bytes are text in UTF-8; everything else is a
fault, with the wording and the number by which the operating system calls it.

`FileContent.lookUp` finds a path on a system that holds the given files and
otherwise only what every system has.
-/
import Milp.Fault

set_option autoImplicit false

namespace Milp

/-- What a path leads to. -/
inductive FileContent where
  | missing
  | directory
  /-- Something that may not be read. -/
  | denied
  /-- Nothing: no file can have such a name. -/
  | nameTooLong
  | bytes (content : ByteArray)

namespace FileContent

def text {α : Type} : FileContent → Except (Fault α) String
  | .missing => .error (.io "No such file or directory (os error 2)")
  | .denied => .error (.io "Permission denied (os error 13)")
  | .directory => .error (.io "Is a directory (os error 21)")
  | .nameTooLong => .error (.io "File name too long (os error 36)")
  | .bytes content =>
    match String.fromUTF8? content with
    | some text => .ok text
    | none => .error (.io "stream did not contain valid UTF-8")

/-! ## Finding a path -/

/-- The directories that every system has, beside the root. -/
def commonDirectories : List (List String) :=
  [["bin"], ["dev"], ["etc"], ["home"], ["lib"], ["opt"], ["proc"], ["root"], ["run"], ["sbin"],
    ["srv"], ["sys"], ["tmp"], ["usr"], ["usr", "bin"], ["usr", "lib"], ["var"], ["var", "tmp"]]

def longestName : Nat := 255

/-- The names in a path. What stays in place or leads back is left out. -/
def names (path : String) : List String :=
  (path.splitOn "/").filter fun name => name != "" && name != "." && name != ".."

/-- What a path leads to on a system that holds some files. -/
def lookUp (files : List (String × FileContent)) (path : String) : FileContent :=
  match files.lookup path with
  | some content => content
  | none =>
    let steps := names path
    if steps.any fun name => longestName < name.utf8ByteSize then .nameTooLong
    else if steps.isEmpty then .directory
    else if !path.startsWith "/" then .missing
    else if steps == ["dev", "null"] then .bytes .empty
    else if commonDirectories.contains steps then .directory
    else .missing

end FileContent

end Milp
