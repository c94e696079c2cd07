/-
`LowerCase` -- the lower-case form of a text, in every script.

Most characters are replaced one by one. Two are not: the capital I with a dot
becomes two characters, and the capital sigma has a form of its own at the end
of a word. A sigma ends a word if, passing over characters that do not separate
letters, a letter with case comes before it and none comes after it.
-/
import Milp.Text.CaseTable

set_option autoImplicit false

namespace Milp.Text

/-- Membership of a character in a table of ranges. -/
def inRanges (ranges : List (Nat × Nat)) (c : Char) : Bool :=
  ranges.any fun (first, last) => first ≤ c.toNat && c.toNat ≤ last

def isCased (c : Char) : Bool := inRanges CaseTable.casedRanges c

def isCaseIgnorable (c : Char) : Bool := inRanges CaseTable.ignorableRanges c

/-- The lower-case form of a character that has one of its own. -/
def lowerChar (c : Char) : Char :=
  if c.toNat < 128 then c.toLower
  else
    let code := c.toNat
    let entry := CaseTable.lowerRanges.find? fun (first, last, step, _) =>
      first ≤ code && code ≤ last && (code - first) % step = 0
    match entry with
    | some (_, _, _, offset) => Char.ofNat ((code : Int) + offset).toNat
    | none => c

/-- Whether, passing over ignorable characters, the next letter has case. -/
def startsCased (cs : List Char) : Bool :=
  match cs.dropWhile isCaseIgnorable with
  | c :: _ => isCased c
  | [] => false

/-- Lower-case a text from left to right; `before` is what precedes, nearest
character first. -/
def lowerFrom (before : List Char) : List Char → List Char
  | [] => []
  | c :: rest =>
    let form :=
      if c = 'Σ' then (if startsCased before && !startsCased rest then ['ς'] else ['σ'])
      else if c = 'İ' then ['i', '\u0307']
      else [lowerChar c]
    form ++ lowerFrom (c :: before) rest

def toLower (text : String) : String := String.ofList (lowerFrom [] text.toList)

end Milp.Text
