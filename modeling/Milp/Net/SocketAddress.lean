/-
`SocketAddress` -- an internet address at which a service listens, and its text.

An address of version 4 is four decimal numbers below 256 between points. One of
version 6, in brackets, is eight groups of up to four hexadecimal digits between
colons; one run of zero groups may be left out by writing two colons, the last
two groups may be written as an address of version 4, and a percent sign and a
number may follow. Which service is meant is told by one more decimal number, below
65536, after a colon.

The text of an address is canonical. In version 6 the first of the longest runs
of at least two zero groups is left out, and an address of version 4 that has
been carried over to version 6 is shown as such.
-/
set_option autoImplicit false

namespace Milp.Net

/-- An internet address with the number of a service there. -/
inductive SocketAddress where
  | v4 (octets : List Nat) (portNumber : Nat)
  | v6 (groups : List Nat) (scope portNumber : Nat)
deriving DecidableEq, Repr

namespace SocketAddress

def portNumber : SocketAddress → Nat
  | .v4 _ portNumber | .v6 _ _ portNumber => portNumber

def isV6 : SocketAddress → Bool
  | .v4 .. => false
  | .v6 .. => true

/-! ## Numbers -/

/-- The value of a digit in a base of at most sixteen. -/
def digitIn? (base : Nat) (c : Char) : Option Nat :=
  let value :=
    if c.isDigit then some (c.toNat - '0'.toNat)
    else if 'a' ≤ c && c ≤ 'f' then some (c.toNat - 'a'.toNat + 10)
    else if 'A' ≤ c && c ≤ 'F' then some (c.toNat - 'A'.toNat + 10)
    else none
  value.filter (· < base)

/-- A number at the start of a text: its value, below `bound`, and the rest. It
has at most `places` digits, if that is given, and unless `padded` it has no
zeros in front. -/
def readNumber (base bound : Nat) (places : Option Nat) (padded : Bool) (cs : List Char) :
    Option (Nat × List Char) :=
  let digits := cs.takeWhile fun c => (digitIn? base c).isSome
  let rest := cs.dropWhile fun c => (digitIn? base c).isSome
  let value := digits.foldl (fun total c => total * base + (digitIn? base c).getD 0) 0
  if digits.isEmpty then none
  else if (places.any fun most => decide (most < digits.length)) then none
  else if !padded && 1 < digits.length && digits.head? == some '0' then none
  else if bound ≤ value then none
  else some (value, rest)

/-- A given character at the start of a text; the rest. -/
def readChar (c : Char) : List Char → Option (List Char)
  | d :: rest => if c = d then some rest else none
  | [] => none

/-- A colon, except in front of the first item, and then an item. -/
def readSeparated {β : Type} (index : Nat) (item : List Char → Option (β × List Char))
    (cs : List Char) : Option (β × List Char) :=
  if index = 0 then item cs else (readChar ':' cs).bind item

/-! ## Version 4 -/

def readOctet (cs : List Char) : Option (Nat × List Char) := readNumber 10 256 (some 3) false cs

def readV4 (cs : List Char) : Option (List Nat × List Char) := do
  let (a, cs) ← readOctet cs
  let (b, cs) ← (readChar '.' cs).bind readOctet
  let (c, cs) ← (readChar '.' cs).bind readOctet
  let (d, cs) ← (readChar '.' cs).bind readOctet
  pure ([a, b, c, d], cs)

/-! ## Version 6 -/

def readEmbedded (cs : List Char) : Option (List Nat × List Char) :=
  (readV4 cs).map fun (octets, rest) =>
    match octets with
    | [a, b, c, d] => ([a * 256 + b, c * 256 + d], rest)
    | _ => ([], rest)

/-- Up to `limit` groups from position `index` on; also whether they end with an
address of version 4. -/
def readGroups (index : Nat) : Nat → List Char → List Nat × Bool × List Char
  | 0, cs => ([], false, cs)
  | limit + 1, cs =>
    -- an address of version 4 takes the room of two groups
    match if 0 < limit then readSeparated index readEmbedded cs else none with
    | some (groups, rest) => (groups, true, rest)
    | none =>
      match readSeparated index (readNumber 16 65536 (some 4) true) cs with
      | none => ([], false, cs)
      | some (group, rest) =>
        let (later, embedded, rest) := readGroups (index + 1) limit rest
        (group :: later, embedded, rest)

/-- Eight groups, some of which may be left out. -/
def readV6 (cs : List Char) : Option (List Nat × List Char) :=
  let (head, embedded, rest) := readGroups 0 8 cs
  if head.length = 8 then some (head, rest)
  else if embedded then none
  else do
    let rest ← readChar ':' rest
    let rest ← readChar ':' rest
    -- at least one group has been left out
    let (tail, _, rest) := readGroups 0 (7 - head.length) rest
    pure (head ++ List.replicate (8 - head.length - tail.length) 0 ++ tail, rest)

/-! ## Whole addresses -/

/-- A colon and the number of a service, up to the end of the text. -/
def readPortNumber (cs : List Char) : Option Nat := do
  let rest ← readChar ':' cs
  let (portNumber, rest) ← readNumber 10 65536 none true rest
  if rest.isEmpty then some portNumber else none

/-- A percent sign and a number, or nothing. -/
def readScope (cs : List Char) : Nat × List Char :=
  match (readChar '%' cs).bind (readNumber 10 4294967296 none true) with
  | some (scope, rest) => (scope, rest)
  | none => (0, cs)

def ofChars? (cs : List Char) : Option SocketAddress :=
  let short : Option SocketAddress := do
    let (octets, rest) ← readV4 cs
    let portNumber ← readPortNumber rest
    pure (.v4 octets portNumber)
  short.orElse fun _ => do
    let rest ← readChar '[' cs
    let (groups, rest) ← readV6 rest
    let (scope, rest) := readScope rest
    let rest ← readChar ']' rest
    let portNumber ← readPortNumber rest
    pure (.v6 groups scope portNumber)

def ofText? (text : String) : Option SocketAddress := ofChars? text.toList

/-- What is said about a text that spells no address. -/
def malformed : String := "invalid socket address syntax"

/-! ## Text -/

def dotted (octets : List Nat) : String := ".".intercalate (octets.map toString)

/-- A number in hexadecimal digits, in lower case. -/
def hexadecimal (n : Nat) : String := String.ofList (Nat.toDigits 16 n)

def colons (groups : List Nat) : String := ":".intercalate (groups.map hexadecimal)

def leadingZeros (groups : List Nat) : Nat := (groups.takeWhile (· = 0)).length

/-- The position and length of the first of the longest runs of zeros. -/
def longestZeros (groups : List Nat) : Nat × Nat :=
  (List.range groups.length).foldl (fun best start =>
    let length := leadingZeros (groups.drop start)
    if best.2 < length then (start, length) else best) (0, 0)

def groupsText (groups : List Nat) : String :=
  match groups with
  | [0, 0, 0, 0, 0, 65535, high, low] =>
    "::ffff:" ++ dotted [high / 256, high % 256, low / 256, low % 256]
  | _ =>
    let (start, length) := longestZeros groups
    if 1 < length then
      colons (groups.take start) ++ "::" ++ colons (groups.drop (start + length))
    else colons groups

def text : SocketAddress → String
  | .v4 octets portNumber => dotted octets ++ ":" ++ toString portNumber
  | .v6 groups scope portNumber =>
    "[" ++ groupsText groups ++ (if scope = 0 then "" else "%" ++ toString scope) ++ "]:"
      ++ toString portNumber

end SocketAddress

end Milp.Net
