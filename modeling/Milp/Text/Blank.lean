/-
`Blank` -- blanks, words and lines.

A blank is a character with the property White_Space. Words are the maximal
runs of other characters. Lines end at a line feed; a carriage return directly
before it belongs to the line end, and text after the last line feed is a line
of its own if there is any.
-/
set_option autoImplicit false

namespace Milp.Text

def isBlank (c : Char) : Bool :=
  let code := c.toNat
  (0x09 ≤ code && code ≤ 0x0D) || code = 0x20 || code = 0x85 || code = 0xA0 || code = 0x1680
    || (0x2000 ≤ code && code ≤ 0x200A) || code = 0x2028 || code = 0x2029 || code = 0x202F
    || code = 0x205F || code = 0x3000

/-! ## Words -/

/-- Split into words; `current` is the word being read, last character first. -/
def wordsFrom (current : List Char) : List Char → List (List Char)
  | [] => if current.isEmpty then [] else [current.reverse]
  | c :: rest =>
    if isBlank c then
      if current.isEmpty then wordsFrom [] rest else current.reverse :: wordsFrom [] rest
    else wordsFrom (c :: current) rest

/-- The maximal runs of characters that are not blank. -/
def words (cs : List Char) : List String := (wordsFrom [] cs).map String.ofList

def trim (text : String) : String :=
  String.ofList ((text.toList.dropWhile isBlank).reverse.dropWhile isBlank).reverse

/-! ## Lines -/

/-- Drop a carriage return at the end of a line, given last character first, and
put the line in reading order. -/
def closeLine : List Char → List Char
  | '\r' :: rest => rest.reverse
  | reversed => reversed.reverse

/-- Split into lines; `current` is the line being read, last character first. -/
def linesFrom (current : List Char) : List Char → List (List Char)
  | [] => if current.isEmpty then [] else [current.reverse]
  | c :: rest =>
    if c = '\n' then closeLine current :: linesFrom [] rest else linesFrom (c :: current) rest

def lines (text : String) : List (List Char) := linesFrom [] text.toList

end Milp.Text
