/-
`Numeral` -- decimal numbers as they are written.

A numeral is what a piece of text says before any number type has rounded it:
a sign, a natural number of digits and a power of ten, or one of the words for
an infinity or for "not a number". Reading text is therefore the same for every
number type of the library; only the last step, from the numeral to a number,
differs (`Number.ofNumeral`).

The grammar accepted by `Numeral.ofText`:

* an optional sign `+` or `-`;
* then one of the words `inf`, `infinity`, `nan` in any mixture of cases;
* or digits with at most one point, at least one digit on either side of it,
  and an optional exponent: `e` or `E`, an optional sign, at least one digit.

Nothing else may precede or follow. `Numeral.text` writes a numeral in one
canonical form that the grammar reads back.
-/
set_option autoImplicit false

namespace Milp

/-- A number as written: exact, whatever its size. -/
inductive Numeral where
  /-- Not a number. -/
  | nan
  /-- An infinity with its sign. -/
  | infinite (negative : Bool)
  /-- The number `± digits · 10 ^ exponent`. -/
  | finite (negative : Bool) (digits : Nat) (exponent : Int)
deriving DecidableEq, Repr

namespace Numeral

/-- Why a text is not a numeral. -/
inductive ReadError where
  | empty
  | malformed
deriving DecidableEq, Repr

def ReadError.message : ReadError → String
  | .empty => "cannot parse float from empty string"
  | .malformed => "invalid float literal"

/-! ## Digits -/

def digitValue (c : Char) : Nat := c.toNat - '0'.toNat

/-- The value of a run of decimal digits, the most significant first. -/
def digitsValue (cs : List Char) : Nat :=
  cs.foldl (fun value c => 10 * value + digitValue c) 0

def leadingDigits (cs : List Char) : List Char := cs.takeWhile Char.isDigit

def afterDigits (cs : List Char) : List Char := cs.dropWhile Char.isDigit

/-! ## Reading -/

/-- An optional sign, as "is it a minus", and the text after it. -/
def splitSign : List Char → Bool × List Char
  | '-' :: rest => (true, rest)
  | '+' :: rest => (false, rest)
  | cs => (false, cs)

/-- The exponent after the letter: an optional sign and at least one digit, up
to the end of the text. -/
def readExponent (cs : List Char) : Option Int :=
  let (negative, body) := splitSign cs
  if body.isEmpty || !body.all Char.isDigit then none
  else
    let magnitude : Int := digitsValue body
    some (if negative then -magnitude else magnitude)

/-- Digits, an optional point with digits on at least one side, and an optional
exponent. -/
def readFinite (negative : Bool) (cs : List Char) : Option Numeral :=
  let whole := leadingDigits cs
  let rest := afterDigits cs
  let (fraction, tail) := match rest with
    | '.' :: more => (leadingDigits more, afterDigits more)
    | _ => ([], rest)
  if whole.isEmpty && fraction.isEmpty then none
  else
    let digits := digitsValue (whole ++ fraction)
    -- each digit behind the point takes one from the exponent
    let shift : Int := fraction.length
    match tail with
    | [] => some (.finite negative digits (-shift))
    | c :: more =>
      if c == 'e' || c == 'E' then
        (readExponent more).map fun exponent => .finite negative digits (exponent - shift)
      else none

def ofChars? (cs : List Char) : Option Numeral :=
  let (negative, body) := splitSign cs
  let word := body.map Char.toLower
  if word = ['n', 'a', 'n'] then some .nan
  else if word = ['i', 'n', 'f'] || word = ['i', 'n', 'f', 'i', 'n', 'i', 't', 'y'] then
    some (.infinite negative)
  else readFinite negative body

/-- The numeral that a text spells, or why it spells none. -/
def ofText (text : String) : Except ReadError Numeral :=
  if text.isEmpty then .error .empty
  else match ofChars? text.toList with
    | some numeral => .ok numeral
    | none => .error .malformed

/-! ## Writing -/

/-- The canonical spelling of a numeral: digits, `e` and the exponent. -/
def text : Numeral → String
  | .nan => "nan"
  | .infinite negative => if negative then "-inf" else "inf"
  | .finite negative digits exponent =>
    (if negative then "-" else "") ++ toString digits ++ "e" ++ toString exponent

end Numeral

end Milp
